import TreeCompiler.Proofs.StackCode.Layout

/-!
# Layout of emitted code

Emitted code has a layout: its parts are the pieces of code that are emitted for the instructions and for the ends of
blocks, put one after the other.

* `EmitsBlocks.exists_pieces` : emitted code comes in pieces.
-/

namespace TreeCompiler

open StackCode List CodePart CodeScope
open Number

namespace StackCode
variable {at_ : Nat} {ps : List Piece} {p : CodePart}

abbrev Piece := CodeOrigin × List StackInstr

/-! ## Sizes -/

theorem length_bytes (distance : BlockId → Int) (i : StackInstr) : (i.bytes distance).length = i.size := by
  cases i with
  | jump b => simp [StackInstr.bytes, StackInstr.size, Blob.ofInt, Blob.length_ofNat]
  | _ => rfl

theorem size_append (is js : List StackInstr) : size (is ++ js) = size is + size js := by
  induction is with
  | nil => exact (Nat.zero_add _).symm
  | cons i is ih => rw [cons_append, size, size, ih, Nat.add_assoc]

theorem encode_append (starts : List Nat) (at_ : Nat) (is js : List StackInstr) :
    encode starts at_ (is ++ js) = encode starts at_ is ++ encode starts (at_ + size is) js := by
  induction is generalizing at_ with
  | nil => rfl
  | cons i is ih => rw [cons_append, encode, encode, ih, size, append_assoc, Nat.add_assoc]

theorem length_encode (starts : List Nat) (at_ : Nat) (is : List StackInstr) :
    (encode starts at_ is).length = size is := by
  induction is generalizing at_ with
  | nil => rfl
  | cons i is ih => rw [encode, length_append, length_bytes, ih, size]

/-! ## Cells and parts -/

variable (starts : List Nat)

/-- The cells of instructions that lie from `at_` on. -/
def cells : Nat → List StackInstr → List CodeCell
  | _, [] => []
  | at_, i :: rest =>
    let next := at_ + i.size
    ⟨i.bytes (distance starts next), i.opcode (distance starts next)⟩ :: cells next rest

theorem flatMap_cells (at_ : Nat) (code : List StackInstr) :
    (cells starts at_ code).flatMap CodeCell.bytes = encode starts at_ code := by
  induction code generalizing at_ with
  | nil => rfl
  | cons i code ih => rw [cells, encode, flatMap_cons, ih]

theorem map_op_cells (at_ : Nat) (code : List StackInstr) :
    (cells starts at_ code).map CodeCell.op = opcodes starts at_ code := by
  induction code generalizing at_ with
  | nil => rfl
  | cons i code ih => rw [cells, opcodes, map_cons, ih]

theorem whole_of_mem_cells {code : List StackInstr} {c : CodeCell} (h : c ∈ cells starts at_ code) : c.Whole := by
  induction code generalizing at_ with
  | nil => cases h
  | cons i code ih =>
    rcases mem_cons.mp h with rfl | h
    · exact Opcode.read_bytes _ i
    · exact ih h

/-- The parts of pieces that lie from `at_` on. -/
def parts : Nat → List Piece → List CodePart
  | _, [] => []
  | at_, piece :: rest => ⟨piece.1, at_, cells starts at_ piece.2⟩ :: parts (at_ + size piece.2) rest

theorem parts_append (at_ : Nat) (ps qs : List Piece) :
    parts starts at_ (ps ++ qs) = parts starts at_ ps ++ parts starts (at_ + size (ps.flatMap Prod.snd)) qs := by
  induction ps generalizing at_ with
  | nil => rfl
  | cons p ps ih =>
    rw [cons_append, parts, parts, ih, flatMap_cons, size_append, cons_append, Nat.add_assoc]

theorem map_origin_parts (at_ : Nat) (ps : List Piece) : (parts starts at_ ps).map origin = ps.map Prod.fst := by
  induction ps generalizing at_ with
  | nil => rfl
  | cons p ps ih => rw [parts, map_cons, map_cons, ih]

theorem bytes_parts (at_ : Nat) (ps : List Piece) :
    (parts starts at_ ps).flatMap bytes = encode starts at_ (ps.flatMap Prod.snd) := by
  induction ps generalizing at_ with
  | nil => rfl
  | cons p ps ih =>
    rw [parts, flatMap_cons, flatMap_cons, encode_append, ih, bytes, flatMap_cells]

theorem mem_parts (h : p ∈ parts starts at_ ps) :
    ∃ piece ∈ ps, p = ⟨piece.1, p.start, cells starts p.start piece.2⟩ := by
  induction ps generalizing at_ with
  | nil => cases h
  | cons piece ps ih =>
    rcases mem_cons.mp h with rfl | h
    · exact ⟨piece, mem_cons_self, rfl⟩
    · obtain ⟨piece', hmem, heq⟩ := ih h
      exact ⟨piece', mem_cons_of_mem _ hmem, heq⟩

theorem start_of_parts {before after : List CodePart} (h : parts starts at_ ps = before ++ p :: after) :
    p.start = at_ + (before.flatMap bytes).length := by
  induction ps generalizing at_ before with
  | nil => simp [parts] at h
  | cons piece ps ih =>
    rw [parts] at h
    cases before with
    | nil =>
      obtain ⟨rfl, -⟩ := cons.inj h
      rfl
    | cons first before =>
      obtain ⟨rfl, hrest⟩ := cons.inj h
      rw [ih hrest, flatMap_cons, length_append, bytes, flatMap_cells, length_encode, Nat.add_assoc]

/-- The parts of blocks, each given by its pieces. -/
def layout : Nat → List (List Piece) → List (List CodePart)
  | _, [] => []
  | at_, block :: rest => parts starts at_ block :: layout (at_ + size (block.flatMap Prod.snd)) rest

theorem flatten_layout (at_ : Nat) (blocks : List (List Piece)) :
    (layout starts at_ blocks).flatten = parts starts at_ blocks.flatten := by
  induction blocks generalizing at_ with
  | nil => rfl
  | cons block blocks ih => rw [layout, flatten_cons, flatten_cons, parts_append, ih]

theorem map_origin_layout (at_ : Nat) (blocks : List (List Piece)) :
    (layout starts at_ blocks).map (·.map origin) = blocks.map (·.map Prod.fst) := by
  induction blocks generalizing at_ with
  | nil => rfl
  | cons block blocks ih => rw [layout, map_cons, map_cons, map_origin_parts, ih]

theorem start_of_layout {k : Nat} {blocks : List (List Piece)} {block : List Piece}
    (hblock : blocks[k]? = some block) (hne : block ≠ []) :
    ∃ ps first, (layout starts at_ blocks)[k]? = some ps ∧ ps.head? = some first ∧
      (StackCode.starts at_ (blocks.map (·.flatMap Prod.snd)))[k]? = some first.start := by
  induction blocks generalizing at_ k with
  | nil => cases hblock
  | cons other blocks ih =>
    cases k with
    | zero =>
      cases hblock
      cases block with
      | nil => exact absurd rfl hne
      | cons piece block => exact ⟨_, _, rfl, rfl, rfl⟩
    | succ k => exact ih hblock

end StackCode

def FlowGraph.JumpsInside (g : FlowGraph) : Prop :=
  ∀ b ∈ g.blocks, ∀ target, b.flow = .jump target → target.index < g.blocks.length

namespace CodeScope
variable {e : CodeScope} {f : References} {frame frame' : Frame} {i : Instruction}
  {codes : List (List StackInstr)} {b : Block}

/-! ## Emitted code comes in pieces -/

theorem all_falls_opcodes (starts : List Nat) (at_ : Nat) (code : List StackInstr) :
    (opcodes starts at_ code).all Opcode.falls = fallsThrough code := by
  have hfalls : ∀ distance (i : StackInstr), (i.opcode distance).falls = (i.opcode fun _ => 0).falls := by
    intro distance i
    cases i <;> rfl
  have hmap := congrArg (·.all id) (map_opcodes hfalls starts at_ code)
  rw [all_map, all_map] at hmap
  exact hmap

/-- The piece is emitted for an instruction or for the end of a block. -/
inductive IsPiece (e : CodeScope) : Piece → Prop where
  | instruction {f : References} {id : InstrId} {frame frame' : Frame} {i : Instruction} {code : List StackInstr} :
      e.Emits f id frame i code frame' → IsPiece e (.instruction i, code)
  | ending {frame : Frame} {b : Block} {code : List StackInstr} : e.EmitsFlow frame b code →
      IsPiece e (.ending b.flow, code)

theorem EmitsAll.exists_pieces {is : Script} (h : e.EmitsAll f frame is codes frame') :
    ∃ ps : List Piece, ps.map Prod.fst = is.map (fun x => .instruction x.2) ∧
      ps.flatMap Prod.snd = codes.flatten ∧ ∀ p ∈ ps, e.IsPiece p := by
  induction h with
  | nil => exact ⟨[], rfl, rfl, forall_mem_nil _⟩
  | @cons _ i code _ _ _ _ _ hfirst _ ih =>
    obtain ⟨ps, horigins, hcode, hps⟩ := ih
    refine ⟨(.instruction i, code) :: ps, ?_, ?_, forall_mem_cons.mpr ⟨.instruction hfirst, hps⟩⟩
    · rw [map_cons, map_cons, horigins]
    · rw [flatMap_cons, flatten_cons, hcode]

theorem EmitsBlocks.exists_pieces {bs : List Block} (h : e.EmitsBlocks f frame bs codes frame') :
    ∃ blocks : List (List Piece), blocks.map (·.map Prod.fst) = bs.map e.origins ∧
      blocks.map (·.flatMap Prod.snd) = codes ∧ ∀ ps ∈ blocks, ∀ p ∈ ps, e.IsPiece p := by
  induction h with
  | nil => exact ⟨[], rfl, rfl, forall_mem_nil _⟩
  | @cons _ b codes _ end_ _ _ _ hall hend _ ih =>
    obtain ⟨blocks, horigins, hcodes, hblocks⟩ := ih
    obtain ⟨ps, hps, hcode, hpieces⟩ := hall.exists_pieces
    refine ⟨(ps ++ [(.ending b.flow, end_)]) :: blocks, ?_, ?_, forall_mem_cons.mpr ⟨?_, hblocks⟩⟩
    · rw [map_cons, map_cons, horigins, map_append, hps]
      rfl
    · rw [map_cons, hcodes, flatMap_append, flatMap_singleton, hcode]
    · exact forall_mem_append.mpr ⟨hpieces, forall_mem_singleton.mpr (.ending hend)⟩

theorem mem_instructionsOf_of_origins (h : .instruction i ∈ e.origins b) :
    ∃ id, (id, i) ∈ e.graph.instructionsOf b := by
  rcases mem_append.mp h with h | h
  · obtain ⟨⟨id, _⟩, hx, heq⟩ := mem_map.mp h
    cases heq
    exact ⟨id, hx⟩
  · cases mem_singleton.mp h

theorem flow_eq_of_origins {flow : Flow} (h : .ending flow ∈ e.origins b) : b.flow = flow := by
  rcases mem_append.mp h with h | h
  · obtain ⟨x, -, heq⟩ := mem_map.mp h
    cases heq
  · exact (CodeOrigin.ending.inj (mem_singleton.mp h)).symm

/-! ## The layout -/

section Pieces
variable {blocks : List (List Piece)} {body : MethodBody}

/-- The code of some pieces, block by block. -/
structure Made (e : CodeScope) (blocks : List (List Piece)) (body : MethodBody) : Prop where
  origins : blocks.map (·.map Prod.fst) = e.graph.blocks.map e.origins
  pieces : ∀ ps ∈ blocks, ∀ p ∈ ps, e.IsPiece p
  code : body.code = assemble (blocks.map (·.flatMap Prod.snd))
  room : body.maxStack.toNat = e.maxStack

theorem made_of_body {r r' : References} (h : e.body.run r = .ok (body, r')) : ∃ blocks, e.Made blocks body := by
  have hensures : Emission.Ensures e.types (fun _ => True) e.body _ := ensures_body e
  obtain ⟨-, -, hemits⟩ := hensures r (fun _ _ => trivial) _ _ h
  obtain ⟨codes, frame, hblocks, hcode, -⟩ := hemits r' (.refl r')
  obtain ⟨blocks, horigins, hcodes, hpieces⟩ := hblocks.exists_pieces
  exact ⟨blocks, horigins, hpieces, hcodes ▸ hcode, maxStack_of_body h⟩

namespace Made
variable {p : CodePart}

abbrev starts (blocks : List (List Piece)) : List Nat :=
  StackCode.starts 0 (blocks.map (·.flatMap Prod.snd))

variable (h : e.Made blocks body)
include h

theorem origin_mem {p : Piece} (hp : p ∈ blocks.flatten) : ∃ b ∈ e.graph.blocks, p.1 ∈ e.origins b := by
  obtain ⟨ps, hps, hp⟩ := mem_flatten.mp hp
  have hmem : ps.map Prod.fst ∈ e.graph.blocks.map e.origins := h.origins ▸ mem_map_of_mem hps
  obtain ⟨b, hb, horigins⟩ := mem_map.mp hmem
  exact ⟨b, hb, horigins ▸ mem_map_of_mem hp⟩

theorem climbs {p : Piece} (hp : p ∈ blocks.flatten) : Climbs body.maxStack.toNat 0 (e.effects p.1 p.2) 0 := by
  have hroom := (maxStack_le_iff e body.maxStack.toNat).mp (Nat.le_of_eq h.room.symm)
  obtain ⟨b, hb, horigin⟩ := h.origin_mem hp
  obtain ⟨ps, hps, hp⟩ := mem_flatten.mp hp
  cases h.pieces ps hps p hp with
  | instruction hemits =>
    obtain ⟨id, hid⟩ := mem_instructionsOf_of_origins horigin
    exact hemits.climbs.mono (hroom.2 b hb _ hid)
  | ending hemits => exact hemits.climbs.mono hroom.1

theorem code_eq : (layout (starts blocks) 0 blocks).flatten.flatMap bytes = body.code := by
  have hflatten : blocks.flatten.flatMap Prod.snd = (blocks.map (·.flatMap Prod.snd)).flatten := by
    simp only [flatMap_def, map_flatten, flatten_flatten, map_map, Function.comp_def]
  rw [flatten_layout, bytes_parts, h.code, assemble, hflatten]

omit h in
theorem toInt_distance {start next : Nat} (hstart : start < pow2 31) (hnext : next < pow2 31) :
    (BitVec.ofInt 32 ((start : Int) - next)).toInt = (start : Int) - next := by
  change start < 2147483648 at hstart
  change next < 2147483648 at hnext
  rw [BitVec.toInt_ofInt]
  exact Int.bmod_eq_of_le (by omega) (by omega)

theorem next_le (hp : p ∈ (layout (starts blocks) 0 blocks).flatten) : p.next ≤ body.code.length := by
  obtain ⟨before, after, hsplit⟩ := append_of_mem hp
  rw [← h.code_eq, hsplit]
  rw [flatten_layout] at hsplit
  rw [CodePart.next, start_of_parts _ hsplit, flatMap_append, flatMap_cons, length_append, length_append]
  omega

theorem exists_block {k : Nat} (hk : k < e.graph.blocks.length) :
    ∃ ps first, (StackCode.layout (starts blocks) 0 blocks)[k]? = some ps ∧ ps.head? = some first ∧
      first ∈ (StackCode.layout (starts blocks) 0 blocks).flatten ∧ (starts blocks)[k]? = some first.start := by
  have hlength : blocks.length = e.graph.blocks.length := by
    rw [← List.length_map (fun ps : List StackCode.Piece => ps.map Prod.fst), h.origins, List.length_map]
  have hblock : blocks[k]? = some (blocks.get ⟨k, hlength ▸ hk⟩) := List.getElem?_eq_getElem _
  have hne : blocks.get ⟨k, hlength ▸ hk⟩ ≠ [] := by
    intro hnil
    have horigins := congrArg (·[k]?) h.origins
    rw [hnil] at hblock
    simp [hblock, List.getElem?_eq_getElem hk, CodeScope.origins] at horigins
  obtain ⟨ps, first, hget, hhead, hstart⟩ := StackCode.start_of_layout (starts blocks) hblock hne
  refine ⟨ps, first, hget, hhead, ?_, hstart⟩
  exact List.mem_flatten.mpr ⟨ps, List.mem_of_getElem? hget, List.mem_of_mem_head? hhead⟩

theorem formed_jump {target : BlockId} (htarget : target.index < e.graph.blocks.length)
    (hsize : body.code.length < pow2 31) (hp : p ∈ (layout (starts blocks) 0 blocks).flatten)
    (horigin : p.origin = .ending (.jump target)) (hcells : p.cells = cells (starts blocks) p.start [.jump target]) :
    p.Formed (layout (starts blocks) 0 blocks) := by
  obtain ⟨ps, first, hget, hhead, hfirst, hstart⟩ := h.exists_block htarget
  have hnext : p.next = p.start + (StackInstr.jump target).size := by
    rw [CodePart.next, bytes, hcells, flatMap_cells, length_encode]
    rfl
  have hops : p.ops = [.jump (.ofInt 32 (distance (starts blocks) p.next target))] := by
    rw [ops, hcells, map_op_cells, hnext]
    rfl
  have hdistance : distance (starts blocks) p.next target = (first.start : Int) - p.next := by
    rw [distance, hstart]
  have hle : first.start ≤ first.next := Nat.le_add_right _ _
  refine .jumps horigin hops hget hhead ?_
  rw [hdistance, toInt_distance (Nat.lt_of_le_of_lt (Nat.le_trans hle (h.next_le hfirst)) hsize)
    (Nat.lt_of_le_of_lt (h.next_le hp) hsize)]
  omega

theorem formed (hjumps : e.graph.JumpsInside) (hsize : body.code.length < pow2 31)
    (hp : p ∈ (layout (starts blocks) 0 blocks).flatten) : p.Formed (layout (starts blocks) 0 blocks) := by
  obtain ⟨piece, hpiece, heq⟩ := mem_parts _ (flatten_layout _ _ _ ▸ hp)
  obtain ⟨ps, hps, hmem⟩ := mem_flatten.mp hpiece
  have horigin : p.origin = piece.1 := congrArg origin heq
  have hcells : p.cells = cells (starts blocks) p.start piece.2 := congrArg CodePart.cells heq
  have hops : p.ops = opcodes (starts blocks) p.start piece.2 := by
    rw [ops, hcells, map_op_cells]
  cases h.pieces ps hps piece hmem with
  | instruction hemits => exact .instruction horigin (by rw [hops, all_falls_opcodes, hemits.fallsThrough])
  | ending hemits =>
    -- the code before the last opcode loads one value at most
    cases hemits with
    | retValue hflow =>
      have hret : p.ops = [.loadLocal _] ++ [.ret] := hops
      exact .returns (horigin.trans (congrArg CodeOrigin.ending hflow)) hret rfl
    | ret hflow =>
      have hret : p.ops = [] ++ [.ret] := hops
      exact .returns (horigin.trans (congrArg CodeOrigin.ending hflow)) hret rfl
    | throwObject hflow =>
      have hthrow : p.ops = [.loadLocal _] ++ [.throw] := hops
      exact .throws (horigin.trans (congrArg CodeOrigin.ending hflow)) hthrow rfl
    | throwNull hflow =>
      have hthrow : p.ops = [.loadNull] ++ [.throw] := hops
      exact .throws (horigin.trans (congrArg CodeOrigin.ending hflow)) hthrow rfl
    | jump hflow =>
      obtain ⟨b, hb, hbflow⟩ := h.origin_mem hpiece
      have htarget := hjumps b hb _ ((flow_eq_of_origins hbflow).trans hflow)
      exact h.formed_jump htarget hsize hp (horigin.trans (congrArg CodeOrigin.ending hflow)) hcells

theorem laid (hjumps : e.graph.JumpsInside) (hsize : body.code.length < pow2 31) :
    e.Laid body (layout (starts blocks) 0 blocks) where
  origins := (map_origin_layout _ _ _).trans h.origins
  code := h.code_eq
  starts before p after hsplit := by
    rw [flatten_layout] at hsplit
    rw [start_of_parts _ hsplit, Nat.zero_add]
  whole p hp c hc := by
    obtain ⟨piece, -, heq⟩ := mem_parts _ (flatten_layout _ _ _ ▸ hp)
    rw [heq] at hc
    exact whole_of_mem_cells _ hc
  balanced p hp := by
    obtain ⟨piece, hpiece, heq⟩ := mem_parts _ (flatten_layout _ _ _ ▸ hp)
    rw [heq, ops, map_op_cells, map_opcodes (e.effect_opcode _)]
    exact h.climbs hpiece
  formed p hp := h.formed hjumps hsize hp

end Made

end Pieces

theorem Laid.reads {body : MethodBody} {layout : List (List CodePart)} (h : e.Laid body layout) :
    Reads body.code (layout.flatten.flatMap ops) := by
  have hcells : ∀ cells : List CodeCell, (∀ c ∈ cells, c.Whole) →
      Reads (cells.flatMap CodeCell.bytes) (cells.map CodeCell.op) := by
    intro cells hwhole
    induction cells with
    | nil => exact .nil
    | cons c cells ih =>
      rw [forall_mem_cons] at hwhole
      exact .cons (hwhole.1 _) (ih hwhole.2)
  have hall := hcells (layout.flatten.flatMap cells) fun c hc => by
    obtain ⟨p, hp, hc⟩ := mem_flatMap.mp hc
    exact h.whole p hp c hc
  rw [flatMap_assoc, map_flatMap] at hall
  rw [← h.code]
  exact hall

/-- Code that is emitted for a graph whose jumps lead to its blocks is read from its start to its end, part by part.
No value is ever missing on the stack, there are never too many, and there is none where an instruction or a block
starts; jumps lead to the starts of blocks. -/
theorem safe_of_body (e : CodeScope) {r r' : References} {body : MethodBody} (h : e.body.run r = .ok (body, r'))
    (hjumps : e.graph.JumpsInside) (hsize : body.code.length < pow2 31) :
    ∃ layout, e.Laid body layout ∧ Reads body.code (layout.flatten.flatMap CodePart.ops) ∧
      (e.graph.blocks ≠ [] → ∀ x, Relation.ReflTransGen (e.Moves layout body.code) ⟨0, 0⟩ x →
        x.Safe e body layout) := by
  obtain ⟨blocks, hmade⟩ := made_of_body h
  have hlaid := hmade.laid hjumps hsize
  exact ⟨_, hlaid, hlaid.reads, fun hblocks x hx => hlaid.safe hblocks hx⟩

/-- Three blocks: the first jumps forwards to the last, which jumps backwards to the second. -/
def crossingScope : CodeScope where
  types := { defs := [{ name := ⟨["System", "Int32"]⟩, origin := .external, primitive := some (.int .i32) }] }
  method := ⟨⟨0⟩, 0⟩
  graph :=
    { instructions := [.constant (.int .i32 7) (some ⟨0⟩), .binary .le (some ⟨0⟩) ⟨0⟩ ⟨0⟩]
      blocks := [
        { name := "entry", instructions := [⟨0⟩], flow? := some (.jump ⟨2⟩) },
        { name := "exit", flow? := some (.ret none) },
        { name := "back", instructions := [⟨1⟩], flow? := some (.jump ⟨1⟩) }] }

theorem safe_of_body_crossingScope : ∃ body r layout, crossingScope.body.run {} = .ok (body, r) ∧
    body.code.length = 37 ∧ body.maxStack = 3 ∧ crossingScope.Laid body layout ∧
    ∀ x, Relation.ReflTransGen (crossingScope.Moves layout body.code) ⟨0, 0⟩ x → x.Safe crossingScope body layout := by
  have hrun : (crossingScope.body.run {}).toOption.map (fun out => (out.1.code.length, out.1.maxStack)) =
      some (37, 3) := by
    decide +kernel
  cases hbody : crossingScope.body.run {} with
  | error e =>
    rw [hbody] at hrun
    cases hrun
  | ok out =>
    rw [hbody] at hrun
    obtain ⟨hlength, hroom⟩ := Prod.mk.inj (Option.some.inj hrun)
    have hsize : out.1.code.length < pow2 31 := hlength ▸ by decide
    have hjumps : crossingScope.graph.JumpsInside := by
      simp [FlowGraph.JumpsInside, crossingScope, Block.flow]
    obtain ⟨layout, hlaid, -, hsafe⟩ := safe_of_body crossingScope hbody hjumps hsize
    exact ⟨out.1, out.2, layout, rfl, hlength, hroom, hlaid, hsafe (by decide)⟩

end CodeScope

end TreeCompiler
