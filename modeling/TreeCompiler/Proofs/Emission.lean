import TreeCompiler.Proofs.FlowGraph.SingleAssignment

/-!
# Runs that may fail

Emission stops at the first error. Here is what is said of a run as a whole: of its result if there is one,
and of its error if there is none.

* `EmitError.Excused good e` : `e` is no use of a value that is not made, and it is excused by the lack of
  `good`.
-/

namespace TreeCompiler

open List Option

/-- An error that emission may stop at. -/
structure EmitError.Excused (good : Prop) (e : EmitError) : Prop where
  defined : ∀ target id name, e ≠ .unsupported target (.undefinedValue id name)
  bad : ¬ good

theorem EmitError.ofDefect_bind {σ α β : Type} {x : Except Defect α} {a : α} (h : x = .ok a)
    (k : α → StateT σ (Except EmitError) β) : (liftM (ofDefect x) >>= k) = k a := by
  rw [h]
  rfl

/-! ## Judgements -/

/-- A way to say that a computation does well and what its result is. -/
structure Judgement (m : Type → Type) [Monad m] where
  post : {α : Type} → m α → (α → Prop) → Prop
  post_imp : {α : Type} → {x : m α} → {P Q : α → Prop} → post x P → (∀ a, P a → Q a) → post x Q
  post_pure : {α : Type} → {a : α} → {Q : α → Prop} → Q a → post (pure a) Q
  post_bind : {α β : Type} → {x : m α} → {k : α → m β} → {P : α → Prop} → {Q : β → Prop} → post x P →
    (∀ a, P a → post (k a) Q) → post (x >>= k) Q

namespace Judgement

/-- A run ends with a result or with an error that may be. -/
def allowing (may : EmitError → Prop) : Judgement (Except EmitError) where
  post x Q :=
    match x with
    | .ok a => Q a
    | .error e => may e
  post_imp {_ x _ _} hx h := by
    cases x with
    | ok a => exact h a hx
    | error e => exact hx
  post_pure h := h
  post_bind {_ _ x _ _ _} hx hk := by
    cases x with
    | ok a => exact hk a hx
    | error e => exact hx

abbrev except (good : Prop) : Judgement (Except EmitError) :=
  allowing (EmitError.Excused good)

variable {m : Type → Type} [Monad m]

/-- A run does well from every state. -/
def state (σ : Type) (J : Judgement m) : Judgement (StateT σ m) where
  post x Q := ∀ s, J.post (x.run s) fun out => Q out.1
  post_imp hx h s := J.post_imp (hx s) fun out => h out.1
  post_pure h _ := J.post_pure h
  post_bind hx hk s := J.post_bind (hx s) fun out hout => hk out.1 hout out.2

/-- A run from the state `s` does well, and its result and the state after it are as `Q` says. -/
def Holds {σ α : Type} (J : Judgement m) (x : StateT σ m α) (s : σ) (Q : α → σ → Prop) : Prop :=
  J.post (x.run s) fun out => Q out.1 out.2

variable {J : Judgement m} {σ α β : Type} {s : σ}

theorem Holds.imp {x : StateT σ m α} {P Q : α → σ → Prop} (hx : J.Holds x s P)
    (h : ∀ a s', P a s' → Q a s') : J.Holds x s Q :=
  J.post_imp hx fun out => h out.1 out.2

theorem holds_pure {a : α} {Q : α → σ → Prop} (h : Q a s) : J.Holds (pure a) s Q :=
  J.post_pure h

theorem Holds.bind {x : StateT σ m α} {k : α → StateT σ m β} {P : α → σ → Prop} {Q : β → σ → Prop}
    (hx : J.Holds x s P) (hk : ∀ a s', P a s' → J.Holds (k a) s' Q) : J.Holds (x >>= k) s Q :=
  J.post_bind hx fun out => hk out.1 out.2

theorem holds_get {k : σ → StateT σ m β} {Q : β → σ → Prop} (hk : J.Holds (k s) s Q) : J.Holds (get >>= k) s Q :=
  Holds.bind (P := fun a s' => a = s ∧ s' = s) (J.post_pure ⟨rfl, rfl⟩) fun _ _ ⟨ha, hs⟩ => ha ▸ hs ▸ hk

/-- A step that leaves the state as it is. -/
theorem Holds.bind_same {x : StateT σ m α} {k : α → StateT σ m β} {Q : β → σ → Prop}
    (hx : J.Holds x s fun _ s' => s' = s) (hk : ∀ a, J.Holds (k a) s Q) : J.Holds (x >>= k) s Q :=
  hx.bind fun a _ hs => hs ▸ hk a

theorem holds_lift {x : m α} {P : α → Prop} (hx : J.post x P) : J.Holds (liftM x) s fun a s' => P a ∧ s' = s :=
  J.post_bind hx fun _ ha => J.post_pure ⟨ha, rfl⟩

theorem holds_lift_bind {x : m α} {k : α → StateT σ m β} {P : α → Prop} {Q : β → σ → Prop} (hx : J.post x P)
    (hk : ∀ a, P a → J.Holds (k a) s Q) : J.Holds (liftM x >>= k) s Q :=
  (holds_lift hx).bind fun a _ h => h.2 ▸ hk a h.1

section Lists
variable [LawfulMonad m] {f : α → m β} {as : List α}

/-- A run over a list keeps an invariant that knows what is done. -/
theorem Holds.mapM {f : α → StateT σ m β} {I : List α → σ → Prop}
    (hf : ∀ done a rest, as = done ++ a :: rest → ∀ s, I done s → J.Holds (f a) s fun _ s' => I (done ++ [a]) s')
    (hs : I [] s) : J.Holds (as.mapM f) s fun _ s' => I as s' := by
  -- the list is split into what is done and the rest, and the induction is on the rest
  have hrun : ∀ rest done s, as = done ++ rest → I done s → J.Holds (rest.mapM f) s fun _ s' => I as s' := by
    intro rest
    induction rest with
    | nil =>
      intro done s hsplit hdone
      rw [append_nil] at hsplit
      exact holds_pure (hsplit ▸ hdone)
    | cons a rest ih =>
      intro done s hsplit hdone
      rw [mapM_cons]
      refine (hf done a rest hsplit s hdone).bind fun b s' hs' => ?_
      refine (ih (done ++ [a]) s' ?_ hs').bind fun bs s'' hs'' => holds_pure hs''
      rw [hsplit, append_assoc]
      rfl
  exact hrun as [] s rfl hs

theorem post_mapM (hf : ∀ a ∈ as, J.post (f a) fun _ => True) : J.post (as.mapM f) fun _ => True := by
  induction as with
  | nil => exact J.post_pure trivial
  | cons a as ih =>
    rw [mapM_cons]
    refine J.post_bind (hf a mem_cons_self) fun _ _ => ?_
    exact J.post_bind (ih fun b hb => hf b (mem_cons_of_mem _ hb)) fun _ _ => J.post_pure trivial

theorem post_optionMapM {o : Option α} (hf : ∀ a, o = some a → J.post (f a) fun _ => True) :
    J.post (o.mapM f) fun _ => True := by
  cases o with
  | none => exact J.post_pure trivial
  | some a =>
    rw [mapM_some, map_eq_pure_bind]
    exact J.post_bind (hf a rfl) fun _ _ => J.post_pure trivial

end Lists

theorem post_ofDefect {good : Prop} {x : Except Defect α} {Q : α → Prop}
    (hgood : good → ∃ a, x = .ok a) (hok : ∀ a, x = .ok a → Q a) : (except good).post (EmitError.ofDefect x) Q := by
  cases x with
  | ok a => exact hok a rfl
  | error d =>
    refine ⟨fun _ _ _ h => (by cases h), fun h => ?_⟩
    obtain ⟨a, ha⟩ := hgood h
    cases ha

/-! ## Computations that are alike -/

/-- A run ends with a result or with an error other than a handle that leads nowhere. -/
abbrev within : Judgement (Except EmitError) :=
  allowing fun e => ∀ length index, e ≠ .defect (.outOfBounds length index)

/-- A run from a state of which `I` is true does well, and `I` is true of the state after it. -/
def keeping (J : Judgement m) (I : σ → Prop) : Judgement (StateT σ m) where
  post x Q := ∀ s, I s → J.post (x.run s) fun out => Q out.1 ∧ I out.2
  post_imp hx h s hs := J.post_imp (hx s hs) fun out hout => ⟨h out.1 hout.1, hout.2⟩
  post_pure h _ hs := J.post_pure ⟨h, hs⟩
  post_bind hx hk s hs := J.post_bind (hx s hs) fun out hout => hk out.1 hout.1 out.2 hout.2

/-- Both are one computation, and it does well. -/
structure Alike (J : Judgement m) (x y : m α) : Prop where
  eq : x = y
  fine : J.post y fun _ => True

section Alike
variable {x y : m α}

theorem alike_pure {a : α} : J.Alike (pure a) (pure a) :=
  ⟨rfl, J.post_pure trivial⟩

theorem Alike.bind {k l : α → m β} (h : J.Alike x y) (hk : ∀ a, J.Alike (k a) (l a)) :
    J.Alike (x >>= k) (y >>= l) := by
  obtain rfl : k = l := funext fun a => (hk a).eq
  exact ⟨congrArg (· >>= k) h.eq, J.post_bind h.fine fun a _ => (hk a).fine⟩

theorem alike_get : (J.state σ).Alike get get :=
  ⟨rfl, fun _ => J.post_pure trivial⟩

theorem alike_modifyGet (f : σ → α × σ) : (J.state σ).Alike (modifyGet f) (modifyGet f) :=
  ⟨rfl, fun _ => J.post_pure trivial⟩

theorem alike_modifyGet_keeping {I : σ → Prop} {f : σ → α × σ} (hf : ∀ s, I s → I (f s).2) :
    (J.keeping I).Alike (modifyGet f) (modifyGet f) :=
  ⟨rfl, fun s hs => J.post_pure ⟨trivial, hf s hs⟩⟩

theorem Alike.lift (h : J.Alike x y) : (J.state σ).Alike (liftM x) (liftM y) :=
  ⟨congrArg _ h.eq, fun _ => J.post_bind h.fine fun _ _ => J.post_pure trivial⟩

theorem Alike.liftKeeping (h : J.Alike x y) (I : σ → Prop) : (J.keeping I).Alike (liftM x) (liftM y) :=
  ⟨congrArg _ h.eq, fun _ hs => J.post_bind h.fine fun _ _ => J.post_pure ⟨trivial, hs⟩⟩

theorem Alike.run {x y : StateT σ m α} (h : (J.state σ).Alike x y) (s : σ) : J.Alike (x.run s) (y.run s) :=
  ⟨congrArg (StateT.run · s) h.eq, h.fine s⟩

variable [LawfulMonad m]

theorem alike_mapM {f g : α → m β} {as : List α} (h : ∀ a ∈ as, J.Alike (f a) (g a)) :
    J.Alike (as.mapM f) (as.mapM g) := by
  induction as with
  | nil => exact alike_pure
  | cons a as ih =>
    rw [mapM_cons, mapM_cons]
    refine (h a mem_cons_self).bind fun b => ?_
    exact (ih fun a' ha' => h a' (mem_cons_of_mem _ ha')).bind fun bs => alike_pure

theorem alike_optionMapM {f g : α → m β} {o : Option α} (h : ∀ a, o = some a → J.Alike (f a) (g a)) :
    J.Alike (o.mapM f) (o.mapM g) := by
  cases o with
  | none => exact alike_pure
  | some a =>
    rw [mapM_some, mapM_some, map_eq_pure_bind, map_eq_pure_bind]
    exact (h a rfl).bind fun b => alike_pure

end Alike

theorem alike_next (modulus n : Nat) : within.Alike (EmitError.ofDefect (Defect.next modulus n))
    (EmitError.ofDefect (Defect.next modulus n)) := by
  refine ⟨rfl, ?_⟩
  unfold Defect.next
  split
  · exact trivial
  · exact fun _ _ heq => by cases heq

end Judgement

/-! ## Places of values -/

namespace Places
variable {ps : Places} {done : Script} {qs : Places}

/-- Every value and every object that is made has a place. -/
def Covers (ps : Places) (done : Script) : Prop :=
  ∀ x ∈ done, x.2.isValue = true ∨ x.2.makesObject = true → (ps.number? (.value x.1)).isSome = true

theorem covers_nil (ps : Places) : ps.Covers [] :=
  fun _ hx => (not_mem_nil hx).elim

theorem isSome_number?_of_prefix {p : Place} (h : (ps.number? p).isSome = true) (hqs : ps <+: qs) :
    (qs.number? p).isSome = true := by
  obtain ⟨more, rfl⟩ := hqs
  rw [number?, findIdx?_append, isSome_or]
  exact Bool.or_eq_true_iff.mpr (Or.inl h)

theorem isSome_number?_append_self (ps : Places) (p : Place) : (number? (ps ++ [p]) p).isSome = true := by
  by_cases h : ps.number? p = none
  · rw [number?_append_self h]
    rfl
  · exact isSome_number?_of_prefix (isSome_iff_ne_none.mpr h) (prefix_append _ _)

theorem Covers.mono (h : ps.Covers done) (hqs : ps <+: qs) : qs.Covers done :=
  fun x hx hmade => isSome_number?_of_prefix (h x hx hmade) hqs

theorem Covers.concat (h : ps.Covers done) {id : InstrId} {i : Instruction}
    (hi : i.isValue = true ∨ i.makesObject = true → (ps.number? (.value id)).isSome = true) :
    ps.Covers (done ++ [(id, i)]) :=
  forall_mem_concat h hi

end Places

namespace FlowGraph
variable {g : FlowGraph} {b : Block} {id : InstrId} {i : Instruction}
  (hnumbered : b.instructions = (range g.instructions.length).map InstrId.mk)
include hnumbered

theorem mem_instructionsOf (h : g.instruction? id = some i) : (id, i) ∈ g.instructionsOf b := by
  have hlt : id.index < g.instructions.length := (List.getElem?_eq_some_iff.mp h).1
  rw [instructionsOf, mem_filterMap]
  refine ⟨id, ?_, by rw [h]; rfl⟩
  rw [hnumbered]
  exact mem_map_of_mem (mem_range.mpr hlt)

theorem split_of_instructionsOf {done rest : Script} (h : g.instructionsOf b = done ++ (id, i) :: rest) :
    g.instructions = done.map Prod.snd ++ i :: rest.map Prod.snd ∧ g.instruction? id = some i ∧
      ∀ a, Defines (done.map Prod.snd) a → ∃ j, (a, j) ∈ done ∧ j.isValue = true := by
  have hsnd := map_snd_instructionsOf hnumbered
  rw [h, map_append, map_cons] at hsnd
  rw [instructionsOf_eq_zipIdx hnumbered] at h
  -- the instruction in place `k` has the number `k`
  have hnumber : ∀ (k : Nat) (x : InstrId × Instruction), (done ++ (id, i) :: rest)[k]? = some x →
      x.1 = ⟨k⟩ ∧ g.instruction? x.1 = some x.2 := by
    intro k x hx
    rw [← h, getElem?_map, getElem?_zipIdx, Option.map_map, Option.map_eq_some_iff] at hx
    obtain ⟨j, hj, rfl⟩ := hx
    simpa [instruction?] using hj
  refine ⟨hsnd.symm, ?_, fun a ha => ?_⟩
  · exact (hnumber done.length (id, i) (by simp)).2
  · obtain ⟨j, hj, hvalue⟩ := ha
    rw [getElem?_map, map_eq_some_iff] at hj
    obtain ⟨⟨a', j⟩, hx, rfl⟩ := hj
    have hfirst : (done ++ (id, i) :: rest)[a.index]? = some (a', j) := by
      rw [List.getElem?_append_left (List.getElem?_eq_some_iff.mp hx).1, hx]
    obtain rfl : a' = a := (hnumber _ _ hfirst).1
    exact ⟨j, mem_of_getElem? hx, hvalue⟩

theorem Assigned.isSome_number? (h : g.Assigned) {ps : Places} {done rest : Script}
    (hsplit : g.instructionsOf b = done ++ (id, i) :: rest) (hcovers : ps.Covers done) :
    ∀ a ∈ i.operands, (ps.number? (.value a)).isSome = true := by
  intro a ha
  obtain ⟨hgraph, -, hdone⟩ := split_of_instructionsOf hnumbered hsplit
  obtain ⟨j, hmem, hvalue⟩ := hdone a (h.operands _ _ _ hgraph a ha)
  exact hcovers (a, j) hmem (Or.inl hvalue)

end FlowGraph

end TreeCompiler
