import TreeCompiler.Proofs.Image.Denotation
import TreeCompiler.Proofs.Image.WrittenNumbers
import TreeCompiler.Proofs.Machine.StoredRegisters

/-!
# Numbers of limited width

Where a target has one or two bytes for a number, what does not fit is dropped without an error. Here is what is
written for every program, and when it is the true number.

* `Emission.post_methodRow`, `Emission.post_typeDefRow`, `Emission.post_imageRows` : the bodies in an image are
  compiled.
-/

namespace TreeCompiler
variable {t : TypeTable} {names : Token → TypeId → Prop}

/-! ## Signatures -/

namespace Blob

/-- The number of parameters that a reader finds in the signature of a method, after the mark. -/
def paramCount? : Blob → Option Nat
  | _ :: count :: _ => some count.toNat
  | _ => none

/-- What one byte holds of a number of parameters; it is the number itself just if that is below 256. -/
structure CountsParams (signature : Blob) (n : Nat) : Prop where
  count : signature.paramCount? = some (n % 256)
  exact_iff : signature.paramCount? = some n ↔ n < 256

theorem countsParams_cons (mark : UInt8) (n : Nat) (rest : Blob) :
    CountsParams (mark :: UInt8.ofNat n :: rest) n := by
  have hcount : paramCount? (mark :: UInt8.ofNat n :: rest) = some (n % 256) :=
    congrArg some UInt8.toNat_ofNat'
  refine ⟨hcount, ?_⟩
  rw [hcount, Option.some.injEq]
  exact Nat.mod_eq_iff_lt (by decide)

end Blob

theorem TypeTable.SignsMethod.countsParams {m : Method} {blob : Blob} (h : t.SignsMethod names m blob) :
    blob.CountsParams m.params.length := by
  obtain ⟨result, params, -, -, rfl⟩ := h
  exact Blob.countsParams_cons _ _ _

/-- The number of parameters of a member, if it has any. -/
def Entity.paramCount? (t : TypeTable) : Entity → Option Nat
  | .method m => some (t.method m).params.length
  | .constructor a => some a.args.length
  | _ => none

theorem TypeTable.Depicts.countsParams {row : MemberRefRow} {member : Entity} (h : t.Depicts names row member)
    {n : Nat} (hn : member.paramCount? t = some n) : row.signature.CountsParams n := by
  cases member with
  | method m =>
    cases hn
    obtain ⟨callee, hcallee, -, -, hsigns⟩ := h
    rw [t.method_of_methodEntry m callee hcallee]
    exact hsigns.countsParams
  | constructor a =>
    cases hn
    rw [h.2.2]
    exact Blob.countsParams_cons _ _ _
  | _ => cases hn

/-! ## Rows -/

theorem Judgement.post_mapM_forall₂ {m : Type → Type} [Monad m] [LawfulMonad m] {J : Judgement m} {α β : Type}
    {f : α → m β} {as : List α} {R : α → β → Prop} (hf : ∀ a ∈ as, J.post (f a) (R a)) :
    J.post (as.mapM f) (List.Forall₂ R as) := by
  induction as with
  | nil => exact J.post_pure .nil
  | cons a as ih =>
    rw [List.mapM_cons]
    refine J.post_bind (hf a List.mem_cons_self) fun b hb => ?_
    exact J.post_bind (ih fun c hc => hf c (List.mem_cons_of_mem _ hc)) fun bs hbs => J.post_pure (.cons hb hbs)

def TypeTable.Compiles (t : TypeTable) (ref : MethodRef) (m : Method) (row : MethodRow) : Prop :=
  ∀ graph, m.body = some graph → ∃ body r r', row.body = some body ∧
    (CodeScope.body { types := t, method := ref, graph }).run r = .ok (body, r')

/-- The methods of a type come first among its rows, with their bodies compiled. -/
def TypeTable.CompilesType (t : TypeTable) (type : TypeId) (d : TypeDef) (row : TypeDefRow) : Prop :=
  ∃ own accessors, row.methods = own ++ accessors ∧
    List.Forall₂ (fun x row => t.Compiles ⟨type, x.2⟩ x.1 row) d.methods.zipIdx own

namespace Emission
variable {α : Type}

theorem post_any (x : Emission α) : returning.post x fun _ => True :=
  fun _ _ _ => trivial

theorem post_run (x : Emission α) : returning.post x fun a => ∃ r r', x.run r = .ok (a, r') :=
  fun r out h => ⟨r, out.2, h⟩

variable (t : TypeTable)

theorem post_methodRow (ref : MethodRef) (m : Method) : returning.post (methodRow t ref m) (t.Compiles ref m) := by
  refine returning.post_bind (post_any (methodHeader t ref.type m)) fun row _ => ?_
  cases hbody : m.body with
  | none =>
    refine returning.post_pure fun graph hgraph => ?_
    rw [hbody] at hgraph
    cases hgraph
  | some graph =>
    refine returning.post_bind (post_run _) fun body hrun => returning.post_pure fun graph' hgraph => ?_
    rw [hbody] at hgraph
    cases hgraph
    obtain ⟨r, r', hrun⟩ := hrun
    exact ⟨body, r, r', rfl, hrun⟩

theorem post_typeDefRow (rows : TypeRows) :
    returning.post (typeDefRow t rows) (t.CompilesType rows.type (t.get rows.type)) := by
  unfold typeDefRow
  refine returning.post_bind (post_any _) fun base _ => returning.post_bind (post_any _) fun interfaces _ => ?_
  refine returning.post_bind (post_any _) fun fields _ => ?_
  refine returning.post_bind (Judgement.post_mapM_forall₂ fun x _ => post_methodRow t ⟨rows.type, x.2⟩ x.1)
    fun own hown => ?_
  refine returning.post_bind (post_any _) fun properties _ => returning.post_bind (post_any _) fun attributes _ => ?_
  exact returning.post_pure ⟨own, properties.2, rfl, hown⟩

theorem post_imageRows (a : Assembly) : returning.post (imageRows a) fun i =>
      List.Forall₂ (fun d row => a.types.CompilesType d.1 d.2 row) a.types.defined i.typeDefs := by
  unfold imageRows
  refine returning.post_bind (post_any _) fun attributes _ => ?_
  refine returning.post_bind (Judgement.post_mapM_forall₂ fun rows _ => post_typeDefRow a.types rows)
    fun typeDefs htypeDefs => ?_
  refine returning.post_bind (post_any _) fun entryPoint _ => returning.post_pure ?_
  exact a.types.forall₂_defined_of_typeRows htypeDefs

end Emission

/-! ## Images -/

/-- The numbers in the rows of a type: how many parameters its methods have, and those in its code. -/
structure TypeTable.NarrowsType (t : TypeTable) (type : TypeId) (d : TypeDef) (row : TypeDefRow) : Prop where
  signatures : List.Forall₂ (fun m row => row.signature.CountsParams m.params.length) (d.methods ++ d.accessors)
    row.methods
  bodies : ∀ (j : Nat) m graph, d.methods[j]? = some m → m.body = some graph → ∃ row' body,
    row.methods[j]? = some row' ∧ row'.body = some body ∧
      CodeScope.Numbered { types := t, method := ⟨type, j⟩, graph } body

/-- The numbers in the rows of types and in those of members of other libraries. -/
structure Assembly.Narrows (a : Assembly) (i : Image) : Prop where
  typeDefs : ∀ (k : Nat) type d, a.types.defined[k]? = some (type, d) → ∃ row, i.typeDefs[k]? = some row ∧
    a.types.NarrowsType type d row
  memberRefs : ∃ f, a.Finished f i ∧ ∀ row ∈ i.memberRefs, ∃ member, a.types.Depicts (f.NamesType a.types) row member ∧
    ∀ n, member.paramCount? a.types = some n → row.signature.CountsParams n

namespace Assembly
variable {a : Assembly} {i : Image}

theorem compiles_of_image (h : a.image = .ok i) :
    List.Forall₂ (fun d row => a.types.CompilesType d.1 d.2 row) a.types.defined i.typeDefs := by
  unfold image at h
  cases hrows : (Emission.imageRows a).run {} with
  | error e =>
    rw [hrows] at h
    cases h
  | ok out =>
    have hout := Emission.post_imageRows a {} out hrows
    rw [hrows] at h
    cases h
    exact hout

theorem narrows_of_image (h : a.image = .ok i)
    (hbodies : ∀ m g, (a.types.method m).body = some g → g.Straight a.types (a.types.method m)) : a.Narrows i := by
  obtain ⟨f, hfinished⟩ := finished_of_image h
  refine ⟨fun k type d hk => ?_, f, hfinished, fun row hrow => ?_⟩
  · obtain ⟨row, hrow, hdescribes⟩ := hfinished.typeDef hk
    obtain ⟨_, hrow', own, accessors, hmethods, hown⟩ := (compiles_of_image h).exists_getElem? hk
    cases hrow.symm.trans hrow'
    have hget : a.types.get type = d := TypeTable.get_of_mem_defined (List.mem_of_getElem? hk)
    refine ⟨row, hrow, hdescribes.forall₂_methods.imp fun _ _ hm => hm.signature.countsParams, ?_⟩
    intro j m graph hm hgraph
    have hj : d.methods.zipIdx[j]? = some (m, j) := by rw [List.getElem?_zipIdx, hm, Nat.zero_add]; rfl
    obtain ⟨mrow, hmrow, hcompiles⟩ := hown.exists_getElem? hj
    obtain ⟨body, r, r', hbody, hrun⟩ := hcompiles graph hgraph
    have hmethod : a.types.method ⟨type, j⟩ = m :=
      a.types.method_of_methodEntry _ _ (Defect.entry_eq_ok_iff.mpr (hget ▸ hm))
    refine ⟨mrow, body, ?_, hbody, CodeScope.numbered_of_body (hbodies ⟨type, j⟩ graph (hmethod ▸ hgraph)) hrun⟩
    rw [hmethods, List.getElem?_append_left (List.getElem?_eq_some_iff.mp hmrow).1, hmrow]
  · rw [hfinished.memberRefs] at hrow
    obtain ⟨member, hmember⟩ := hfinished.sound f (.refl f) row hrow
    exact ⟨member, hmember, fun n hn => hmember.countsParams hn⟩

end Assembly

/-! ## Programs -/

namespace Compilation

open Machine in
/-- The numbers that both targets write for a program. An image counts parameters in one byte, and slots and arguments
in two; a program for the machine counts parameters in two bytes before it takes the first register. -/
theorem written_numbers (trees : List Tree) (options : Options) :
    (∀ image, (lowered trees options).assembly.image = .ok image → (lowered trees options).assembly.Narrows image) ∧
      ∀ lines, (lowered trees options).assembly.machineLines = .ok lines → ∀ e : MethodScope,
        e.types = (lowered trees options).assembly.types → e.method ∈ definedMethods e.types →
        e.decl.isStatic = true → e.decl.body = some e.graph →
        ∃ before own after, methodLines e.types before e.method = .ok (own, after) ∧ own <:+: lines ∧ e.Begins own := by
  have hready : (lowered trees options).assembly.Ready False := ready_lowered trees options False.elim False.elim
  have hbodies := fun m g hg => (hready.bodies m g hg).2
  refine ⟨fun image himage => Assembly.narrows_of_image himage hbodies, fun lines hlines e htypes => ?_⟩
  exact begins_of_machineLines hlines hbodies htypes

/-- The first register of a function with 252 parameters is the one after those. -/
theorem written_numbers_savingTree : ∃ graph image lines own p,
    (savingProgram 252).assembly.image = .ok image ∧ (savingProgram 252).assembly.Narrows image ∧
    (savingProgram 252).assembly.machineLines = .ok lines ∧ own <:+: lines ∧
    (savingScope 252 graph).Begins own ∧ (savingScope 252 graph).needs.head? = some p ∧
    (savingScope 252 graph).registerOf p = ⟨253⟩ := by
  have hchecked : ((savingProgram 252).assembly.image.toOption.isSome,
      (savingProgram 252).assembly.machineLines.toOption.isSome,
      decide (⟨⟨40⟩, 1⟩ ∈ Machine.definedMethods (savingProgram 252).assembly.types),
      ((savingProgram 252).assembly.types.method ⟨⟨40⟩, 1⟩).isStatic,
      ((savingProgram 252).assembly.types.method ⟨⟨40⟩, 1⟩).body.map fun g =>
        ((savingScope 252 g).arity, (savingScope 252 g).needs.isEmpty)) =
      (true, true, true, true, some (252, false)) := by
    decide +kernel
  simp only [Prod.mk.injEq, decide_eq_true_eq] at hchecked
  obtain ⟨himage, hlines, hdefined, hstatic, hbody⟩ := hchecked
  obtain ⟨image, himage⟩ := Option.isSome_iff_exists.mp himage
  obtain ⟨lines, hlines⟩ := Option.isSome_iff_exists.mp hlines
  obtain ⟨graph, hgraph, hneeds⟩ := Option.map_eq_some_iff.mp hbody
  obtain ⟨harity, hneeds⟩ := Prod.mk.inj hneeds
  obtain ⟨p, rest, hp⟩ := List.exists_cons_of_ne_nil (List.isEmpty_eq_false_iff.mp hneeds)
  have hhead : (savingScope 252 graph).needs.head? = some p := by
    rw [hp]
    rfl
  have hwritten := written_numbers
    [savingTree 252 [.var "x" none (some (.ofInt 7)) {}, .call (.unqualified "g") [] {}]] { target := .machine }
  obtain ⟨_, own, _, -, hinfix, hbegins⟩ := hwritten.2 lines (eq_ok_of_toOption hlines) (savingScope 252 graph)
    (types_savingScope 252 graph) (by simpa only [savingScope] using hdefined)
    (by simpa only [Machine.MethodScope.decl, savingScope] using hstatic)
    (by simpa only [Machine.MethodScope.decl, savingScope] using hgraph)
  refine ⟨graph, image, lines, own, p, eq_ok_of_toOption himage, hwritten.1 image (eq_ok_of_toOption himage),
    eq_ok_of_toOption hlines, hinfix, hbegins, hhead, ?_⟩
  rw [(hbegins.first p hhead).1, harity]
  rfl

/-- A method with 256 parameters has a signature that counts none. -/
theorem miscounted_parameters :
    (lowered [savingTree 256 []] {}).diagnostics = [] ∧
      ∃ image, (lowered [savingTree 256 []] {}).assembly.image = .ok image ∧ ∃ d ∈ image.typeDefs, ∃ row ∈ d.methods,
        row.params.length = 256 ∧ row.signature.paramCount? = some 0 := by
  have hchecked : ((lowered [savingTree 256 []] {}).diagnostics.isEmpty,
      (lowered [savingTree 256 []] {}).assembly.image.toOption.map fun image => image.typeDefs.any fun d =>
        d.methods.any fun row => row.params.length == 256 && row.signature.paramCount? == some 0) =
      (true, some true) := by
    decide +kernel
  obtain ⟨hsilent, himage⟩ := Prod.mk.inj hchecked
  obtain ⟨image, hok, hany⟩ := Option.map_eq_some_iff.mp himage
  refine ⟨List.isEmpty_iff.mp hsilent, image, eq_ok_of_toOption hok, ?_⟩
  simpa using hany

end Compilation

end TreeCompiler
