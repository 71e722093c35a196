import TreeCompiler.Proofs.StackCode.Heights
import Mathlib.Logic.Relation

/-!
# Layout of code

The code of a method lies block by block, and in a block instruction by instruction. A runtime that comes to an
offset reads an opcode there and goes on behind it, or where a jump leads.
-/

namespace TreeCompiler

open List
open Number

/-- The bytes of an opcode. -/
structure CodeCell where
  bytes : Blob
  op : Opcode
deriving DecidableEq, Repr

namespace CodeCell

/-- The bytes are read as the opcode, whatever comes after them. -/
def Whole (c : CodeCell) : Prop :=
  ∀ rest, Opcode.read (c.bytes ++ rest) = some (c.op, rest)

theorem Whole.length_pos {c : CodeCell} (h : c.Whole) : 0 < c.bytes.length := by
  refine length_pos_of_ne_nil fun hnil => ?_
  have hread := h []
  rw [hnil] at hread
  cases hread

end CodeCell

/-- The code of an instruction or of the end of a block, and the offset where it starts. -/
structure CodePart where
  origin : CodeOrigin
  start : Nat
  cells : List CodeCell
deriving DecidableEq, Repr

namespace CodePart

def bytes (p : CodePart) : Blob :=
  p.cells.flatMap CodeCell.bytes

def next (p : CodePart) : Nat :=
  p.start + p.bytes.length

def ops (p : CodePart) : List Opcode :=
  p.cells.map CodeCell.op

/-- How a part goes on. Code of an instruction falls through; the end of a block is left by its last opcode, and
a jump leads to the start of the block that it names. -/
inductive Formed (layout : List (List CodePart)) (p : CodePart) : Prop where
  | instruction : p.origin = .instruction i → p.ops.all Opcode.falls = true → Formed layout p
  | returns : p.origin = .ending (.ret value) → p.ops = loads ++ [.ret] → loads.all Opcode.falls = true →
      Formed layout p
  | throws : p.origin = .ending .unreachable → p.ops = loads ++ [.throw] → loads.all Opcode.falls = true →
      Formed layout p
  | jumps : p.origin = .ending (.jump target) → p.ops = [.jump distance] → layout[target.index]? = some block →
      block.head? = some first → (p.next : Int) + distance.toInt = first.start → Formed layout p

end CodePart

namespace CodePart.Formed
variable {layout : List (List CodePart)} {p : CodePart} {done rest : List CodeCell} {cell : CodeCell}

theorem origin_of_falls (h : p.Formed layout) (hcells : p.cells = done ++ [cell]) (hfalls : cell.op.falls = true) :
    ∃ i, p.origin = .instruction i := by
  have hops : p.ops = done.map CodeCell.op ++ [cell.op] := by
    rw [ops, hcells, map_append, map_singleton]
  have hlast : ∀ (loads : List Opcode) (op : Opcode), p.ops = loads ++ [op] → op.falls = true := by
    intro loads op hloads
    obtain ⟨-, heq⟩ := append_inj' (hops.symm.trans hloads) rfl
    rwa [← singleton_inj.mp heq]
  cases h with
  | instruction horigin _ => exact ⟨_, horigin⟩
  | returns _ hret => cases hlast _ _ hret
  | throws _ hthrow => cases hlast _ _ hthrow
  | jumps _ hjump => cases hlast [] _ hjump

theorem start_of_jump (h : p.Formed layout) (hcells : p.cells = done ++ cell :: rest) {distance : BitVec 32}
    (hop : cell.op = .jump distance) :
    done = [] ∧ rest = [] ∧ ∃ (k : Nat) (block : List CodePart) (first : CodePart), layout[k]? = some block ∧
      block.head? = some first ∧ (p.next : Int) + distance.toInt = first.start := by
  have hmem : .jump distance ∈ p.ops := by
    rw [ops, hcells, ← hop]
    simp
  have hnot : ∀ {loads : List Opcode} {op : Opcode}, p.ops = loads ++ [op] → loads.all Opcode.falls = true →
      op = .jump distance := by
    intro loads op hloads hfalls
    rw [hloads, mem_append, mem_singleton] at hmem
    rcases hmem with hmem | hmem
    · cases all_eq_true.mp hfalls _ hmem
    · exact hmem.symm
  cases h with
  | instruction _ hfalls => cases all_eq_true.mp hfalls _ hmem
  | returns _ hret hfalls => cases hnot hret hfalls
  | throws _ hthrow hfalls => cases hnot hthrow hfalls
  | jumps _ hjump hblock hfirst hstart =>
    have hlength : (done ++ cell :: rest).length = 1 := by
      rw [← hcells, ← length_map (f := CodeCell.op)]
      exact congrArg length hjump
    rw [length_append, length_cons] at hlength
    rw [hjump, mem_singleton] at hmem
    cases hmem
    exact ⟨length_eq_zero_iff.mp (by omega), length_eq_zero_iff.mp (by omega), _, _, _, hblock, hfirst, hstart⟩

end CodePart.Formed

namespace CodeScope

def origins (e : CodeScope) (b : Block) : List CodeOrigin :=
  (e.graph.instructionsOf b).map (fun x => .instruction x.2) ++ [.ending b.flow]

/-- The parts of all blocks make up the code. Every part is made of whole instructions, leaves an empty stack
empty and has room on it. -/
structure Laid (e : CodeScope) (body : MethodBody) (layout : List (List CodePart)) : Prop where
  origins : layout.map (·.map CodePart.origin) = e.graph.blocks.map e.origins
  code : layout.flatten.flatMap CodePart.bytes = body.code
  starts : ∀ before p after, layout.flatten = before ++ p :: after →
    p.start = (before.flatMap CodePart.bytes).length
  whole : ∀ p ∈ layout.flatten, ∀ c ∈ p.cells, c.Whole
  balanced : ∀ p ∈ layout.flatten, Climbs body.maxStack.toNat 0 (p.ops.map (e.effect p.origin)) 0
  formed : ∀ p ∈ layout.flatten, p.Formed layout

/-- An offset in the code, and how many values are on the stack there. -/
structure Point where
  offset : Nat
  height : Nat
deriving DecidableEq, Repr

/-- One opcode is read and executed. -/
inductive Moves (e : CodeScope) (layout : List (List CodePart)) (code : Blob) : Point → Point → Prop where
  | fall {p : CodePart} {o h : Nat} {op : Opcode} {rest : Blob} : p ∈ layout.flatten → p.start ≤ o → o < p.next →
      Opcode.read (code.drop o) = some (op, rest) → op.falls = true → (e.effect p.origin op).1 ≤ h →
      Moves e layout code ⟨o, h⟩
        ⟨code.length - rest.length, h - (e.effect p.origin op).1 + (e.effect p.origin op).2⟩
  | jump {o h target : Nat} {distance : BitVec 32} {rest : Blob} :
      Opcode.read (code.drop o) = some (.jump distance, rest) →
      ((code.length - rest.length : Nat) : Int) + distance.toInt = target →
      Moves e layout code ⟨o, h⟩ ⟨target, h⟩

/-- At the point an opcode is read that finds the values which it takes. There is room for all values on the stack,
and none is on it where an instruction or a block starts. -/
structure Point.Safe (e : CodeScope) (body : MethodBody) (layout : List (List CodePart)) (x : Point) : Prop where
  reads : ∃ p ∈ layout.flatten, p.start ≤ x.offset ∧ x.offset < p.next ∧
    ∃ op rest, Opcode.read (body.code.drop x.offset) = some (op, rest) ∧ (e.effect p.origin op).1 ≤ x.height
  room : x.height ≤ body.maxStack.toNat
  empty : ∀ p ∈ layout.flatten, p.start = x.offset → x.height = 0

/-! ## Code that is laid out is safe -/

/-- The point is before `cell`, after the parts `before` and the cells `done` of the part `p`. -/
structure Point.At (e : CodeScope) (bound : Nat) (before : List CodePart) (p : CodePart) (done : List CodeCell)
    (cell : CodeCell) (rest : List CodeCell) (x : Point) : Prop where
  cells : p.cells = done ++ cell :: rest
  offset : x.offset = (before.flatMap CodePart.bytes).length + (done.flatMap CodeCell.bytes).length
  climbs : Climbs bound x.height (((cell :: rest).map CodeCell.op).map (e.effect p.origin)) 0
  empty : done = [] → x.height = 0

namespace Laid
variable {e : CodeScope} {body : MethodBody} {layout : List (List CodePart)}
  {before after block : List CodePart} {p : CodePart} {done rest : List CodeCell} {cell : CodeCell}
  {x : Point} {i : Instruction}

theorem mem_of_split (hsplit : layout.flatten = before ++ p :: after) : p ∈ layout.flatten :=
  hsplit ▸ mem_append_right _ mem_cons_self

variable (h : e.Laid body layout)
include h

theorem next_le_start {middle : List CodePart} {q : CodePart}
    (hsplit : layout.flatten = before ++ p :: (middle ++ q :: after)) : p.next ≤ q.start := by
  have hq := h.starts (before ++ p :: middle) q after (by rw [hsplit, append_assoc, cons_append])
  rw [hq, CodePart.next, h.starts before p _ hsplit, flatMap_append, flatMap_cons, length_append, length_append]
  omega

theorem eq_or_next_le {q : CodePart} (hp : p ∈ layout.flatten)
    (hq : q ∈ layout.flatten) : p = q ∨ p.next ≤ q.start ∨ q.next ≤ p.start := by
  obtain ⟨before, after, hsplit⟩ := append_of_mem hp
  rw [hsplit] at hq
  rcases mem_append.mp hq with hbefore | hafter
  · obtain ⟨first, middle, rfl⟩ := append_of_mem hbefore
    rw [append_assoc, cons_append] at hsplit
    exact .inr (.inr (h.next_le_start hsplit))
  · rcases mem_cons.mp hafter with rfl | hafter
    · exact .inl rfl
    · obtain ⟨middle, last, rfl⟩ := append_of_mem hafter
      exact .inr (.inl (h.next_le_start hsplit))

section At
variable (hsplit : layout.flatten = before ++ p :: after)
include hsplit

theorem next_of_at (hx : x.At e body.maxStack.toNat before p done cell []) :
    x.offset + cell.bytes.length = p.next ∧ p.next = ((before ++ [p]).flatMap CodePart.bytes).length := by
  have hbytes : p.bytes = done.flatMap CodeCell.bytes ++ cell.bytes := by
    rw [CodePart.bytes, hx.cells, flatMap_append, flatMap_singleton]
  rw [CodePart.next, h.starts before p after hsplit, flatMap_append, flatMap_singleton, length_append,
    hx.offset, hbytes, length_append, Nat.add_assoc]
  exact ⟨rfl, rfl⟩

variable (hx : x.At e body.maxStack.toNat before p done cell rest)
include hx

theorem read_of_at : ∃ tail, Opcode.read (body.code.drop x.offset) = some (cell.op, tail) ∧
    body.code.length - tail.length = x.offset + cell.bytes.length := by
  have hcode : body.code = (before.flatMap CodePart.bytes ++ done.flatMap CodeCell.bytes) ++
      (cell.bytes ++ (rest.flatMap CodeCell.bytes ++ after.flatMap CodePart.bytes)) := by
    rw [← h.code, hsplit]
    simp only [flatMap_append, flatMap_cons, CodePart.bytes, hx.cells, append_assoc]
  have hlength : x.offset = (before.flatMap CodePart.bytes ++ done.flatMap CodeCell.bytes).length := by
    rw [hx.offset, length_append]
  have hwhole := h.whole p (mem_of_split hsplit) cell (hx.cells ▸ mem_append_right _ mem_cons_self)
  refine ⟨rest.flatMap CodeCell.bytes ++ after.flatMap CodePart.bytes, ?_, ?_⟩
  · rw [hcode, hlength, drop_left, hwhole]
  · rw [hcode, hlength]
    simp only [length_append]
    omega

theorem bounds_of_at : p.start ≤ x.offset ∧ x.offset < p.next := by
  have hwhole := h.whole p (mem_of_split hsplit) cell (hx.cells ▸ mem_append_right _ mem_cons_self)
  have hpos := hwhole.length_pos
  rw [CodePart.next, h.starts before p after hsplit, CodePart.bytes, hx.cells, hx.offset, flatMap_append,
    flatMap_cons, length_append, length_append]
  omega

theorem eq_nil_of_at (hstart : x.offset = p.start) : done = [] := by
  rw [hx.offset, h.starts before p after hsplit, Nat.add_eq_left] at hstart
  cases done with
  | nil => rfl
  | cons first done =>
    have hwhole := h.whole p (mem_of_split hsplit) first (hx.cells ▸ mem_append_left _ mem_cons_self)
    have hpos := hwhole.length_pos
    rw [flatMap_cons, length_append] at hstart
    omega

theorem safe_of_at : x.Safe e body layout := by
  obtain ⟨tail, hread, -⟩ := h.read_of_at hsplit hx
  obtain ⟨hstart, hnext⟩ := h.bounds_of_at hsplit hx
  have hmem := mem_of_split hsplit
  cases hx.climbs with
  | cons hroom hpops _ =>
    refine ⟨⟨p, hmem, hstart, hnext, cell.op, tail, hread, hpops⟩, hroom, fun q hq hqstart => hx.empty ?_⟩
    refine h.eq_nil_of_at hsplit hx ?_
    rcases h.eq_or_next_le hmem hq with rfl | hle | hle
    · exact hqstart.symm
    · omega
    · have hqle : q.start ≤ q.next := Nat.le_add_right _ _
      omega

end At

theorem at_of_append {rest : List CodePart}
    (hsplit : layout.flatten = before ++ rest) (hrest : ∃ p ∈ rest, p.cells ≠ []) :
    ∃ before' p after cell cells, layout.flatten = before' ++ p :: after ∧
      Point.At e body.maxStack.toNat before' p [] cell cells ⟨(before.flatMap CodePart.bytes).length, 0⟩ := by
  induction rest generalizing before with
  | nil =>
    obtain ⟨p, hp, -⟩ := hrest
    cases hp
  | cons p rest ih =>
    cases hcells : p.cells with
    | nil =>
      have hbytes : (before ++ [p]).flatMap CodePart.bytes = before.flatMap CodePart.bytes := by
        simp [CodePart.bytes, hcells]
      rw [← hbytes]
      refine ih (by rw [hsplit, append_assoc, singleton_append]) ?_
      obtain ⟨q, hq, hne⟩ := hrest
      rcases mem_cons.mp hq with rfl | hq
      · exact absurd hcells hne
      · exact ⟨q, hq, hne⟩
    | cons cell cells =>
      have hbalanced := h.balanced p (mem_of_split hsplit)
      rw [CodePart.ops, hcells] at hbalanced
      exact ⟨before, p, rest, cell, cells, hsplit, hcells, rfl, hbalanced, fun _ => rfl⟩

theorem cells_ne_nil (hp : p ∈ layout.flatten) {flow : Flow} (horigin : p.origin = .ending flow) : p.cells ≠ [] := by
  have hops : p.ops ≠ [] := by
    cases h.formed p hp with
    | instruction hinstruction =>
      rw [horigin] at hinstruction
      cases hinstruction
    | returns _ hops | throws _ hops | jumps _ hops =>
      rw [hops]
      simp
  exact fun hcells => hops (by rw [CodePart.ops, hcells, map_nil])

omit h in
theorem ending_mem_of_origins (bs : List Block) {before after : List CodeOrigin}
    (hsplit : bs.flatMap e.origins = before ++ .instruction i :: after) : ∃ flow, .ending flow ∈ after := by
  induction bs generalizing before with
  | nil => simp at hsplit
  | cons b bs ih =>
    rw [flatMap_cons] at hsplit
    rcases append_eq_append_iff.mp hsplit with ⟨between, rfl, hrest⟩ | ⟨between, hblock, hrest⟩
    · exact ih hrest
    · -- the instruction is one of the first block
      cases between with
      | nil =>
        have hfirst : bs.flatMap e.origins = [] ++ .instruction i :: after := hrest.symm
        exact ih hfirst
      | cons first between =>
        obtain ⟨rfl, rfl⟩ := cons.inj hrest
        refine ⟨b.flow, mem_append_left _ ?_⟩
        have hlast := congrArg getLast? hblock
        rw [CodeScope.origins, getLast?_concat, getLast?_append_cons] at hlast
        cases between with
        | nil => cases hlast
        | cons second between =>
          rw [getLast?_cons_cons] at hlast
          exact mem_of_getLast? hlast.symm

theorem exists_after_instruction (hsplit : layout.flatten = before ++ p :: after)
    (horigin : p.origin = .instruction i) : ∃ q ∈ after, q.cells ≠ [] := by
  have horigins : e.graph.blocks.flatMap e.origins =
      before.map CodePart.origin ++ .instruction i :: after.map CodePart.origin := by
    rw [flatMap_def, ← h.origins, ← map_flatten, hsplit, map_append, map_cons, horigin]
  obtain ⟨flow, hflow⟩ := ending_mem_of_origins e.graph.blocks horigins
  obtain ⟨q, hq, hqflow⟩ := mem_map.mp hflow
  refine ⟨q, hq, h.cells_ne_nil ?_ hqflow⟩
  rw [hsplit]
  exact mem_append_right _ (mem_cons_of_mem _ hq)

theorem exists_in_block (hblock : block ∈ layout) : ∃ q ∈ block, q.cells ≠ [] := by
  have hmem : block.map CodePart.origin ∈ e.graph.blocks.map e.origins := h.origins ▸ mem_map_of_mem hblock
  obtain ⟨b, -, hb⟩ := mem_map.mp hmem
  have hend : .ending b.flow ∈ block.map CodePart.origin := by
    rw [← hb, CodeScope.origins]
    simp
  obtain ⟨q, hq, hqflow⟩ := mem_map.mp hend
  exact ⟨q, hq, h.cells_ne_nil (mem_flatten.mpr ⟨block, hblock, hq⟩) hqflow⟩

theorem at_start_of_block {k : Nat} {first : CodePart}
    (hblock : layout[k]? = some block) (hfirst : block.head? = some first) :
    ∃ before p after cell cells, layout.flatten = before ++ p :: after ∧
      Point.At e body.maxStack.toNat before p [] cell cells ⟨first.start, 0⟩ := by
  obtain ⟨hk, hget⟩ := List.getElem?_eq_some_iff.mp hblock
  obtain ⟨others, rfl⟩ := head?_eq_some_iff.mp hfirst
  have hsplit : layout.flatten = (layout.take k).flatten ++ (first :: (others ++ (layout.drop (k + 1)).flatten)) := by
    calc layout.flatten = (layout.take k ++ layout[k] :: layout.drop (k + 1)).flatten := by
          rw [← drop_eq_getElem_cons hk, take_append_drop]
      _ = _ := by rw [hget, flatten_append, flatten_cons, cons_append]
  rw [h.starts _ _ _ hsplit]
  refine h.at_of_append hsplit ?_
  obtain ⟨q, hq, hne⟩ := h.exists_in_block (mem_of_getElem? hblock)
  refine ⟨q, ?_, hne⟩
  rw [← cons_append]
  exact mem_append_left _ hq

/-- One step leads from a point of the code to another one. -/
theorem at_of_moves {y : Point} (hsplit : layout.flatten = before ++ p :: after)
    (hx : x.At e body.maxStack.toNat before p done cell rest) (hmoves : e.Moves layout body.code x y) :
    ∃ before p after done cell rest, layout.flatten = before ++ p :: after ∧
      y.At e body.maxStack.toNat before p done cell rest := by
  obtain ⟨tail, hread, hnext⟩ := h.read_of_at hsplit hx
  obtain ⟨hstart, hlt⟩ := h.bounds_of_at hsplit hx
  have hformed := h.formed p (mem_of_split hsplit)
  cases hmoves with
  | @fall q o height op rest' hq hqstart hqlt hread' hfalls hpops =>
    cases hread.symm.trans hread'
    change p.start ≤ o at hstart
    change o < p.next at hlt
    obtain rfl : p = q := by
      rcases h.eq_or_next_le (mem_of_split hsplit) hq with heq | hle | hle
      · exact heq
      · omega
      · omega
    cases hx.climbs with
    | cons _ _ hclimbs =>
      rw [hnext]
      cases rest with
      | cons cell' rest =>
        refine ⟨before, p, after, done ++ [cell], cell', rest, hsplit, ?_, ?_, hclimbs, fun hnil => ?_⟩
        · rw [hx.cells, append_assoc, singleton_append]
        · rw [hx.offset]
          simp [Nat.add_assoc]
        · simp at hnil
      | nil =>
        -- the part is left, and it is that of an instruction
        obtain ⟨i, horigin⟩ := hformed.origin_of_falls hx.cells hfalls
        obtain ⟨hend, hlength⟩ := h.next_of_at hsplit hx
        have hafter : layout.flatten = (before ++ [p]) ++ after := by
          rw [hsplit, append_assoc, singleton_append]
        obtain ⟨before', q, after', cell', cells', hsplit', hat⟩ :=
          h.at_of_append hafter (h.exists_after_instruction hsplit horigin)
        rw [hend.trans hlength, hclimbs.eq_of_nil]
        exact ⟨before', q, after', [], cell', cells', hsplit', hat⟩
  | @jump o height target distance rest' hread' htarget =>
    obtain ⟨hop, rfl⟩ := Prod.mk.inj (Option.some.inj (hread.symm.trans hread'))
    obtain ⟨rfl, rfl, k, block, first, hblock, hfirst, hjump⟩ := hformed.start_of_jump hx.cells hop
    obtain rfl : height = 0 := hx.empty rfl
    have hstart : target = first.start := by
      rw [hnext, (h.next_of_at hsplit hx).1] at htarget
      omega
    obtain ⟨before', q, after', cell', cells', hsplit', hat⟩ := h.at_start_of_block hblock hfirst
    rw [hstart]
    exact ⟨before', q, after', [], cell', cells', hsplit', hat⟩

/-- Wherever a runtime comes, it is safe. -/
theorem safe (hblocks : e.graph.blocks ≠ [])
    (hx : Relation.ReflTransGen (e.Moves layout body.code) ⟨0, 0⟩ x) : x.Safe e body layout := by
  -- the invariant of the run is that the point lies before an opcode of some part
  have hat : ∃ before p after done cell rest, layout.flatten = before ++ p :: after ∧
      x.At e body.maxStack.toNat before p done cell rest := by
    induction hx with
    | refl =>
      have hlayout : layout ≠ [] := by
        intro hnil
        have horigins := h.origins
        rw [hnil] at horigins
        exact hblocks (map_eq_nil_iff.mp horigins.symm)
      obtain ⟨block, hblock⟩ := exists_mem_of_ne_nil _ hlayout
      obtain ⟨q, hq, hne⟩ := h.exists_in_block hblock
      have hall : layout.flatten = [] ++ layout.flatten := rfl
      obtain ⟨before, p, after, cell, cells, hsplit, hat⟩ :=
        h.at_of_append hall ⟨q, mem_flatten.mpr ⟨block, hblock, hq⟩, hne⟩
      exact ⟨before, p, after, [], cell, cells, hsplit, hat⟩
    | tail _ hmoves ih =>
      obtain ⟨before, p, after, done, cell, rest, hsplit, hat⟩ := ih
      exact h.at_of_moves hsplit hat hmoves
  obtain ⟨before, p, after, done, cell, rest, hsplit, hat⟩ := hat
  exact h.safe_of_at hsplit hat

end Laid

end CodeScope

end TreeCompiler
