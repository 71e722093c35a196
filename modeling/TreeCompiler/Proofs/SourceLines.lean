import TreeCompiler.SourceFile

/-!
# Lines of a source text

A text is cut after each line feed. Of each piece the range without the line end is recorded, in bytes, and a line is
read back as the slice of the text in its range.

* `Text.Cut` : the pieces of a text, said without the function that makes them;
* `Text.slice?_append` : a slice between character boundaries;
* `SourceFile.getElem?_ranges` : where each piece lies.
-/

namespace TreeCompiler

open List

namespace Text

/-- A text that is cut after each line feed. -/
structure Cut (s : List Char) (pieces : List (List Char)) : Prop where
  flatten : pieces.flatten = s
  ne_nil : ∀ p ∈ pieces, p ≠ []
  inside : ∀ p ∈ pieces, '\n' ∉ p.dropLast
  ended : ∀ p ∈ pieces.dropLast, p.getLast? = some '\n'

theorem Cut.newline {s : List Char} {ps : List (List Char)} (h : Cut s ps) : Cut ('\n' :: s) (['\n'] :: ps) where
  flatten := congrArg ('\n' :: ·) h.flatten
  ne_nil := forall_mem_cons.mpr ⟨cons_ne_nil _ _, h.ne_nil⟩
  inside := forall_mem_cons.mpr ⟨not_mem_nil, h.inside⟩
  ended p hp := by
    cases ps with
    | nil => cases hp
    | cons q ps =>
      rcases mem_cons.mp hp with rfl | hp
      · rfl
      · exact h.ended p hp

theorem Cut.cons {s p : List Char} {ps : List (List Char)} {c : Char} (hc : c ≠ '\n') (h : Cut s (p :: ps)) :
    Cut (c :: s) ((c :: p) :: ps) := by
  obtain ⟨hp, hps⟩ := forall_mem_cons.mp h.ne_nil
  obtain ⟨hinside, hrest⟩ := forall_mem_cons.mp h.inside
  refine ⟨congrArg (c :: ·) h.flatten, forall_mem_cons.mpr ⟨cons_ne_nil _ _, hps⟩,
    forall_mem_cons.mpr ⟨?_, hrest⟩, fun q hq => ?_⟩
  · rw [dropLast_cons_of_ne_nil hp, mem_cons, not_or]
    exact ⟨hc.symm, hinside⟩
  · cases ps with
    | nil => cases hq
    | cons p' ps =>
      rcases mem_cons.mp hq with rfl | hq
      · rw [getLast?_cons, h.ended p mem_cons_self]
        rfl
      · exact h.ended q (mem_cons_of_mem _ hq)

theorem cut_pieces (s : List Char) : Cut s (pieces s) := by
  induction s with
  | nil => exact ⟨rfl, forall_mem_nil _, forall_mem_nil _, forall_mem_nil _⟩
  | cons c s ih =>
    unfold pieces
    split
    next hc => exact hc ▸ ih.newline
    next hc =>
      split
      next hpieces =>
        obtain rfl : s = [] := by simpa [hpieces] using ih.flatten.symm
        refine ⟨rfl, forall_mem_singleton.mpr (cons_ne_nil _ _), forall_mem_singleton.mpr not_mem_nil, forall_mem_nil _⟩
      next p ps hpieces => exact (hpieces ▸ ih).cons hc

/-- What is trimmed off is the longest end of a text all of whose characters are to go. -/
theorem exists_trimEnd (p : Char → Bool) (cs : List Char) :
    ∃ ending, cs = trimEnd p cs ++ ending ∧ (∀ c ∈ ending, p c = true) ∧
      ∀ c, (trimEnd p cs).getLast? = some c → p c = false := by
  induction cs with
  | nil => exact ⟨[], rfl, forall_mem_nil _, fun c hc => by cases hc⟩
  | cons c cs ih =>
    obtain ⟨ending, hcs, hending, hlast⟩ := ih
    have htrim : trimEnd p (c :: cs) = if (trimEnd p cs).isEmpty && p c then [] else c :: trimEnd p cs := rfl
    rw [htrim]
    generalize trimEnd p cs = shown at hcs hlast ⊢
    subst hcs
    split
    next hgone =>
      obtain ⟨hempty, hc⟩ := Bool.and_eq_true_iff.mp hgone
      obtain rfl := isEmpty_iff.mp hempty
      exact ⟨c :: ending, rfl, forall_mem_cons.mpr ⟨hc, hending⟩, fun c hc => by cases hc⟩
    next hstays =>
      refine ⟨ending, rfl, hending, fun d hd => ?_⟩
      cases shown with
      | nil => simpa [← Option.some.inj hd] using hstays
      | cons c' shown => exact hlast d ((getLast?_cons_cons).symm.trans hd)

/-! ## Slices -/

theorem dropBytes?_append (before after : List Char) :
    dropBytes? (before ++ after) (byteLength before) = some after := by
  induction before with
  | nil => cases after <;> rfl
  | cons c before ih =>
    obtain ⟨n, hn⟩ := Nat.exists_eq_succ_of_ne_zero (Nat.ne_of_gt c.utf8Size_pos)
    rw [cons_append, byteLength_cons, hn, Nat.succ_add, dropBytes?, hn, if_pos (by omega), ← ih]
    congr 1
    omega

theorem takeBytes?_append (shown after : List Char) :
    takeBytes? (shown ++ after) (byteLength shown) = some shown := by
  induction shown with
  | nil => cases after <;> rfl
  | cons c shown ih =>
    obtain ⟨n, hn⟩ := Nat.exists_eq_succ_of_ne_zero (Nat.ne_of_gt c.utf8Size_pos)
    have hrest : n.succ + byteLength shown - n.succ = byteLength shown := Nat.add_sub_cancel_left ..
    rw [cons_append, byteLength_cons, hn, Nat.succ_add, takeBytes?, hn, if_pos (by omega), ← Nat.succ_eq_add_one,
      ← Nat.succ_add, hrest, ih]
    rfl

theorem slice?_append (before shown after : List Char) :
    slice? (before ++ (shown ++ after)) (byteLength before) (byteLength before + byteLength shown) = some shown := by
  rw [slice?, if_pos (Nat.le_add_right ..), dropBytes?_append, Nat.add_sub_cancel_left]
  exact takeBytes?_append shown after

theorem utf8ByteSize_ofList (cs : List Char) : (String.ofList cs).utf8ByteSize = byteLength cs := by
  induction cs with
  | nil => rfl
  | cons c cs ih =>
    rw [String.ofList_cons, String.utf8ByteSize_append, ih, byteLength_cons, String.utf8ByteSize_singleton]

/-- What comes before some part of a text ends at a character boundary. -/
theorem isValid_byteLength {s : String} {before after : List Char} (h : s.toList = before ++ after) :
    String.Pos.Raw.IsValid s ⟨byteLength before⟩ := by
  refine String.Pos.Raw.isValid_iff_exists_append.mpr ⟨String.ofList before, String.ofList after, ?_, ?_⟩
  · rw [← String.ofList_append, ← h, String.ofList_toList]
  · exact String.Pos.Raw.ext (utf8ByteSize_ofList before).symm

end Text

namespace SourceFile

open Text
variable {ps : List (List Char)} (offset : Nat)

/-! ## Ranges -/

theorem length_ranges (ps : List (List Char)) : (ranges offset ps).length = ps.length := by
  induction ps generalizing offset with
  | nil => rfl
  | cons p ps ih => exact congrArg Nat.succ (ih _)

/-- The range of a piece starts behind the pieces before it and ends before its line end. -/
theorem getElem?_ranges {k : Nat} {p : List Char} (h : ps[k]? = some p) :
    (ranges offset ps)[k]? = some ⟨offset + byteLength (ps.take k).flatten,
      offset + byteLength (ps.take k).flatten + byteLength (trimEnd isLineEnd p)⟩ := by
  induction ps generalizing offset k with
  | nil => cases h
  | cons q ps ih =>
    cases k with
    | zero =>
      cases h
      rfl
    | succ k => simpa [ranges, Nat.add_assoc] using ih (offset + byteLength q) h

theorem le_start_of_mem_ranges {offset : Nat} {r : LineRange} (h : r ∈ ranges offset ps) : offset ≤ r.start := by
  induction ps generalizing offset with
  | nil => cases h
  | cons p ps ih =>
    rcases mem_cons.mp h with rfl | h
    · exact Nat.le_refl _
    · exact Nat.le_trans (Nat.le_add_right ..) (ih h)

theorem pairwise_ranges (h : ∀ p ∈ ps, p ≠ []) :
    (ranges offset ps).Pairwise fun r r' => r.start < r'.start ∧ r.stop ≤ r'.start := by
  induction ps generalizing offset with
  | nil => exact Pairwise.nil
  | cons p ps ih =>
    obtain ⟨hp, hps⟩ := forall_mem_cons.mp h
    refine pairwise_cons.mpr ⟨fun r hr => ?_, ih _ hps⟩
    have hstart := le_start_of_mem_ranges hr
    obtain ⟨ending, heq, -⟩ := exists_trimEnd isLineEnd p
    have hlength := congrArg byteLength heq
    rw [byteLength_append] at hlength
    have hpos : 0 < byteLength p := by
      cases p with
      | nil => exact absurd rfl hp
      | cons c p => exact Nat.add_pos_left c.utf8Size_pos _
    dsimp only
    omega

/-! ## Lines -/

/-- A line as it stands in a text: what is shown of it, and the line ends behind. -/
structure Line where
  shown : List Char
  ending : List Char

def Line.whole (l : Line) : List Char :=
  l.shown ++ l.ending

/-- All carriage returns and line feeds at the end are the line's ending, and nothing else is. -/
structure Line.Trimmed (l : Line) : Prop where
  ending : ∀ c ∈ l.ending, c = '\n' ∨ c = '\r'
  shown : ∀ c, l.shown.getLast? = some c → c ≠ '\n' ∧ c ≠ '\r'

/-- The line that a piece is, cut where it is trimmed. -/
def Line.ofPiece (p : List Char) : Line :=
  ⟨trimEnd isLineEnd p, p.drop (trimEnd isLineEnd p).length⟩

theorem Line.whole_ofPiece (p : List Char) : (ofPiece p).whole = p := by
  obtain ⟨ending, heq, -⟩ := exists_trimEnd isLineEnd p
  unfold whole ofPiece
  generalize trimEnd isLineEnd p = shown at heq ⊢
  rw [heq, drop_left]

theorem Line.trimmed_ofPiece (p : List Char) : (ofPiece p).Trimmed := by
  obtain ⟨ending, heq, hending, hlast⟩ := exists_trimEnd isLineEnd p
  have hdrop : (ofPiece p).ending = ending := append_cancel_left ((whole_ofPiece p).trans heq)
  refine ⟨fun c hc => ?_, fun c hc => ?_⟩
  · simpa [isLineEnd] using hending c (hdrop ▸ hc)
  · simpa [isLineEnd] using hlast c hc

variable {source : String} {k : Nat} {p : List Char}

/-- The text before a piece, what is shown of the piece, and the rest. -/
theorem exists_toList_eq (h : (pieces source.toList)[k]? = some p) :
    ∃ after, source.toList = ((pieces source.toList).take k).flatten ++ (trimEnd isLineEnd p ++ after) := by
  obtain ⟨ending, heq, -⟩ := exists_trimEnd isLineEnd p
  obtain ⟨hk, hp⟩ := List.getElem?_eq_some_iff.mp h
  refine ⟨ending ++ ((pieces source.toList).drop (k + 1)).flatten, ?_⟩
  rw [← append_assoc (trimEnd isLineEnd p), ← heq, ← hp, ← flatten_cons, ← drop_eq_getElem_cons, ← flatten_append,
    take_append_drop, flatten_pieces]

theorem getElem?_lines (name : String) (h : (pieces source.toList)[k]? = some p) :
    (ofText name source).lines[k]? = some ⟨byteLength ((pieces source.toList).take k).flatten,
      byteLength ((pieces source.toList).take k).flatten + byteLength (trimEnd isLineEnd p)⟩ := by
  have hrange := getElem?_ranges 0 h
  rwa [Nat.zero_add] at hrange

theorem lineCount_ofText (name source : String) : (ofText name source).lineCount = (pieces source.toList).length :=
  length_ranges 0 _

theorem line?_succ (name source : String) (k : Nat) : (ofText name source).line? (k + 1) =
      (pieces source.toList)[k]?.map fun p => String.ofList (trimEnd isLineEnd p) := by
  rw [line?, if_neg (Nat.succ_ne_zero k), Nat.add_sub_cancel]
  cases hp : (pieces source.toList)[k]? with
  | none =>
    have hlines : (ofText name source).lines[k]? = none := by
      have hcount : (ofText name source).lines.length = _ := lineCount_ofText name source
      rw [getElem?_eq_none_iff, hcount]
      exact getElem?_eq_none_iff.mp hp
    rw [hlines]
    rfl
  | some p =>
    obtain ⟨after, hsource⟩ := exists_toList_eq hp
    have hslice := slice?_append ((pieces source.toList).take k).flatten (trimEnd isLineEnd p) after
    rw [← hsource] at hslice
    rw [getElem?_lines name hp, Option.bind_some, ofText, hslice]
    rfl

/-- A text is cut after each line feed into lines with their ends. A line is there just for the numbers from one to
the count of lines, and is what is shown of its piece: the piece without the carriage returns and line feeds at its
end. The recorded ranges are those of what is shown, each behind all pieces before it; they are increasing, do not
overlap, and start and stop at character boundaries of the text. -/
theorem lines_cover_text (name source : String) :
    let f := ofText name source
    (∀ k, (f.line? k).isSome = true ↔ 1 ≤ k ∧ k ≤ f.lineCount) ∧
    (f.lines.Pairwise fun r r' => r.start < r'.start ∧ r.stop ≤ r'.start) ∧
    ∃ ls : List Line, Cut source.toList (ls.map Line.whole) ∧ (∀ l ∈ ls, l.Trimmed) ∧ f.lineCount = ls.length ∧
      ∀ k l, ls[k]? = some l → f.line? (k + 1) = some (String.ofList l.shown) ∧
        ∃ r, f.lines[k]? = some r ∧ r.start = byteLength ((ls.map Line.whole).take k).flatten ∧
          r.stop = r.start + byteLength l.shown ∧ r.stop ≤ source.utf8ByteSize ∧
          String.Pos.Raw.IsValid source ⟨r.start⟩ ∧ String.Pos.Raw.IsValid source ⟨r.stop⟩ := by
  have hcut := cut_pieces source.toList
  have hwhole : ((pieces source.toList).map Line.ofPiece).map Line.whole = pieces source.toList := by
    simp [Function.comp_def, Line.whole_ofPiece]
  refine ⟨fun k => ?_, pairwise_ranges 0 hcut.ne_nil, (pieces source.toList).map Line.ofPiece, ?_, ?_, ?_, ?_⟩
  · cases k with
    | zero => simp [line?]
    | succ k =>
      rw [line?_succ, Option.isSome_map, isSome_getElem?, lineCount_ofText]
      omega
  · rwa [hwhole]
  · exact forall_mem_map.mpr fun p _ => Line.trimmed_ofPiece p
  · rw [lineCount_ofText, length_map]
  · intro k l hl
    rw [getElem?_map, Option.map_eq_some_iff] at hl
    obtain ⟨p, hp, rfl⟩ := hl
    obtain ⟨after, hsource⟩ := exists_toList_eq hp
    have hstop := isValid_byteLength (hsource.trans (append_assoc _ _ _).symm)
    rw [byteLength_append] at hstop
    rw [hwhole, line?_succ, hp]
    exact ⟨rfl, _, getElem?_lines name hp, rfl, rfl, hstop.le_rawEndPos, isValid_byteLength hsource, hstop⟩

end SourceFile

end TreeCompiler
