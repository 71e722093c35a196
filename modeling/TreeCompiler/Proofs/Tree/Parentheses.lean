import TreeCompiler.Proofs.Tree.Places
import TreeCompiler.Tree.Text

/-!
# Parentheses of expressions

Printed expressions are read back by precedence climbing. The reader knows nothing of the printer but the
precedences and associativities of the operators.
-/

namespace TreeCompiler

open List

def Leaf.expr : Leaf → Expr
  | .literal value => .literal value {}
  | .ident name => .ident name {}
  | .error => .error {}

namespace Expr
variable {fuel min : Nat} {ts us mid post : List ExprToken} {r : Expr × List ExprToken} {lhs e : Expr}

@[simp] theorem tokens_gist (e : Expr) (min : Nat) : e.gist.tokens min = e.tokens min := by
  induction e generalizing min with
  | binary op lhs rhs span ihl ihr => simp only [gist, tokens, ihl, ihr]
  | _ => rfl

/-! ## Precedence climbing -/

mutual

/-- Reads an operand, then goes on with operators from precedence `min` up. One step of fuel for each token. -/
def climb (fuel min : Nat) (ts : List ExprToken) : Option (Expr × List ExprToken) :=
  match fuel with
  | 0 => none
  | fuel + 1 =>
    match ts with
    | .leaf l :: ts => goOn fuel min l.expr ts
    | .opening :: ts =>
      match climb fuel 0 ts with
      | some (e, .closing :: ts) => goOn fuel min e ts
      | _ => none
    | _ => none

def goOn (fuel min : Nat) (lhs : Expr) (ts : List ExprToken) : Option (Expr × List ExprToken) :=
  match ts with
  | .op o :: ts =>
    if min ≤ o.precedence then
      match fuel with
      | 0 => none
      | fuel + 1 =>
        match climb fuel o.rightMin ts with
        | some (rhs, ts) => goOn fuel min (.binary o lhs rhs {}) ts
        | none => none
    else some (lhs, .op o :: ts)
  | ts => some (lhs, ts)

end

/-- The expression that all of the tokens make up. -/
def parse (ts : List ExprToken) : Option Expr :=
  match climb ts.length 0 ts with
  | some (e, []) => some e
  | _ => none

/-- No operator from precedence `min` up comes next. -/
def Stops (min : Nat) (ts : List ExprToken) : Prop :=
  ∀ o rest, ts = .op o :: rest → o.precedence < min

theorem climb_eq_some_iff : climb fuel min ts = some r ↔ ∃ n, fuel = n + 1 ∧
      ((∃ l ts', ts = .leaf l :: ts' ∧ goOn n min l.expr ts' = some r) ∨
        ∃ ts' e rest, ts = .opening :: ts' ∧ climb n 0 ts' = some (e, .closing :: rest) ∧
          goOn n min e rest = some r) := by
  constructor
  · intro h
    cases fuel with
    | zero => cases h
    | succ n =>
      refine ⟨n, rfl, ?_⟩
      unfold climb at h
      split at h
      next l ts => exact .inl ⟨l, ts, rfl, h⟩
      next ts =>
        split at h
        next e rest hclimb => exact .inr ⟨ts, e, rest, rfl, hclimb, h⟩
        · cases h
      · cases h
  · rintro ⟨n, rfl, ⟨l, ts, rfl, hgo⟩ | ⟨ts, e, rest, rfl, hclimb, hgo⟩⟩
    · rwa [climb]
    · rwa [climb, hclimb]

theorem goOn_eq_some_iff : goOn fuel min lhs ts = some r ↔ Stops min ts ∧ r = (lhs, ts) ∨
      ∃ n o ts' rhs rest, fuel = n + 1 ∧ ts = .op o :: ts' ∧ min ≤ o.precedence ∧
        climb n o.rightMin ts' = some (rhs, rest) ∧ goOn n min (.binary o lhs rhs {}) rest = some r := by
  constructor
  · intro h
    unfold goOn at h
    split at h
    next o ts =>
      split at h
      next hmin =>
        split at h
        · cases h
        next n =>
          split at h
          next rhs rest hclimb => exact .inr ⟨n, o, ts, rhs, rest, rfl, rfl, hmin, hclimb, h⟩
          · cases h
      next hmin =>
        cases h
        refine .inl ⟨?_, rfl⟩
        rintro _ _ ⟨⟩
        exact Nat.lt_of_not_le hmin
    next hts =>
      cases h
      exact .inl ⟨fun o rest heq => absurd heq (hts o rest), rfl⟩
  · rintro (⟨hstops, rfl⟩ | ⟨n, o, ts, rhs, rest, rfl, rfl, hmin, hclimb, hgo⟩)
    · unfold goOn
      split
      next o rest => rw [if_neg (Nat.not_le_of_lt (hstops o rest rfl))]
      · rfl
    · rwa [goOn, if_pos hmin, hclimb]

theorem climb_goOn_succ (fuel : Nat) : (∀ min ts r, climb fuel min ts = some r → climb (fuel + 1) min ts = some r) ∧
      ∀ min lhs ts r, goOn fuel min lhs ts = some r → goOn (fuel + 1) min lhs ts = some r := by
  induction fuel with
  | zero =>
    refine ⟨fun min ts r h => ?_, fun min lhs ts r h => ?_⟩
    · cases h
    · obtain hstops | ⟨n, _, _, _, _, hn, _⟩ := goOn_eq_some_iff.mp h
      · exact goOn_eq_some_iff.mpr (.inl hstops)
      · cases hn
  | succ fuel ih =>
    obtain ⟨ihclimb, ihgo⟩ := ih
    refine ⟨fun min ts r h => ?_, fun min lhs ts r h => ?_⟩
    · obtain ⟨_, ⟨⟩, ⟨l, ts', hts, hgo⟩ | ⟨ts', e, rest, hts, hclimb, hgo⟩⟩ := climb_eq_some_iff.mp h
      · exact climb_eq_some_iff.mpr ⟨_, rfl, .inl ⟨l, ts', hts, ihgo _ _ _ _ hgo⟩⟩
      · exact climb_eq_some_iff.mpr ⟨_, rfl, .inr ⟨ts', e, rest, hts, ihclimb _ _ _ hclimb, ihgo _ _ _ _ hgo⟩⟩
    · obtain hstops | ⟨_, o, ts', rhs, rest, ⟨⟩, hts, hmin, hclimb, hgo⟩ := goOn_eq_some_iff.mp h
      · exact goOn_eq_some_iff.mpr (.inl hstops)
      · exact goOn_eq_some_iff.mpr
          (.inr ⟨_, o, ts', rhs, rest, rfl, hts, hmin, ihclimb _ _ _ hclimb, ihgo _ _ _ _ hgo⟩)

theorem climb_mono {n m : Nat} (hle : n ≤ m) (h : climb n min ts = some r) : climb m min ts = some r := by
  induction hle with
  | refl => exact h
  | step _ ih => exact (climb_goOn_succ _).1 _ _ _ ih

theorem goOn_mono {n m : Nat} (hle : n ≤ m) (h : goOn n min lhs ts = some r) : goOn m min lhs ts = some r := by
  induction hle with
  | refl => exact h
  | step _ ih => exact (climb_goOn_succ _).2 _ _ _ _ ih

/-! ## The grammar -/

/-- The tokens are an expression all of whose bare operators have precedence `min` or more. -/
inductive Derives : Nat → List ExprToken → Expr → Prop
  | leaf (min : Nat) (l : Leaf) : Derives min [.leaf l] l.expr
  | paren (min : Nat) {ts : List ExprToken} {e : Expr} (h : Derives 0 ts e) :
      Derives min (.opening :: ts ++ [.closing]) e
  | binary {min : Nat} {o : Operator} {ls rs : List ExprToken} {lhs rhs : Expr} (hmin : min ≤ o.precedence)
      (hl : Derives o.leftMin ls lhs) (hr : Derives o.rightMin rs rhs) :
      Derives min (ls ++ .op o :: rs) (.binary o lhs rhs {})

theorem derives_of_climb_goOn (fuel : Nat) : (∀ min ts e rest, climb fuel min ts = some (e, rest) →
      ∃ us, ts = us ++ rest ∧ Derives min us e ∧ Stops min rest) ∧
    ∀ min ls lhs ts e rest, Derives min ls lhs → (∀ o rest, ts = .op o :: rest → Derives o.leftMin ls lhs) →
      goOn fuel min lhs ts = some (e, rest) → ∃ us, ts = us ++ rest ∧ Derives min (ls ++ us) e ∧ Stops min rest := by
  induction fuel with
  | zero =>
    refine ⟨fun min ts e rest h => ?_, fun min ls lhs ts e rest hl hleft h => ?_⟩
    · cases h
    · obtain ⟨hstops, ⟨⟩⟩ | ⟨n, _, _, _, _, hn, _⟩ := goOn_eq_some_iff.mp h
      · exact ⟨[], rfl, by rwa [append_nil], hstops⟩
      · cases hn
  | succ fuel ih =>
    obtain ⟨ihclimb, ihgo⟩ := ih
    refine ⟨fun min ts e rest h => ?_, fun min ls lhs ts e rest hl hleft h => ?_⟩
    · obtain ⟨_, ⟨⟩, ⟨l, ts', rfl, hgo⟩ | ⟨ts', e', rest', rfl, hclimb, hgo⟩⟩ := climb_eq_some_iff.mp h
      · obtain ⟨us, rfl, hderives, hstops⟩ :=
          ihgo _ _ _ _ _ _ (.leaf min l) (fun o _ _ => .leaf o.leftMin l) hgo
        exact ⟨.leaf l :: us, rfl, hderives, hstops⟩
      · obtain ⟨inner, rfl, hinner, -⟩ := ihclimb _ _ _ _ hclimb
        obtain ⟨us, rfl, hderives, hstops⟩ :=
          ihgo _ _ _ _ _ _ (.paren min hinner) (fun o _ _ => .paren o.leftMin hinner) hgo
        exact ⟨.opening :: inner ++ [.closing] ++ us, by simp, hderives, hstops⟩
    · obtain ⟨hstops, ⟨⟩⟩ | ⟨_, o, ts', rhs, rest', ⟨⟩, rfl, hmin, hclimb, hgo⟩ := goOn_eq_some_iff.mp h
      · exact ⟨[], rfl, by rwa [append_nil], hstops⟩
      · obtain ⟨rs, rfl, hr, hnext⟩ := ihclimb _ _ _ _ hclimb
        -- An operator that comes next is not in the right operand, so that it does not bind tighter than `o`.
        have hbinary (q : Operator) (ts : List ExprToken) (heq : rest' = .op q :: ts) :
            Derives q.leftMin (ls ++ .op o :: rs) (.binary o lhs rhs {}) :=
          .binary (Nat.le_of_lt_succ (hnext q ts heq)) (hleft o _ rfl) hr
        obtain ⟨us, rfl, hderives, hstops⟩ :=
          ihgo _ _ _ _ _ _ (.binary hmin (hleft o _ rfl) hr) hbinary hgo
        exact ⟨.op o :: rs ++ us, by simp, by simpa using hderives, hstops⟩

theorem climb_of_derives {min : Nat} {ts : List ExprToken} {e : Expr} (h : Derives min ts e)
    {fuel low : Nat} {rest : List ExprToken} {r : Expr × List ExprToken} (hlow : low ≤ min)
    (hstops : Stops (min + 1) rest) (hgo : goOn fuel low e rest = some r) :
    climb (fuel + ts.length) low (ts ++ rest) = some r := by
  induction h generalizing fuel low rest r with
  | leaf min l => exact climb_eq_some_iff.mpr ⟨fuel, rfl, .inl ⟨l, rest, rfl, hgo⟩⟩
  | @paren min ts e _ ih =>
    have hclosing : ∀ min, Stops min (.closing :: rest) := fun _ _ _ heq => by cases heq
    have hinner : climb (0 + ts.length) 0 (ts ++ .closing :: rest) = some (e, .closing :: rest) :=
      ih (Nat.le_refl 0) (hclosing _) (goOn_eq_some_iff.mpr (.inl ⟨hclosing 0, rfl⟩))
    refine climb_eq_some_iff.mpr ⟨fuel + (ts.length + 1), ?_, .inr ⟨ts ++ .closing :: rest, e, rest, ?_, ?_, ?_⟩⟩
    · simp; omega
    · simp
    · exact climb_mono (by omega) hinner
    · exact goOn_mono (by omega) hgo
  | @binary min o ls rs lhs rhs hmin _ _ ihl ihr =>
    -- What follows the right operand does not belong to it.
    have hafter : Stops o.rightMin rest := fun q ts heq =>
      Nat.lt_of_lt_of_le (hstops q ts heq) (Nat.succ_le_succ hmin)
    have hright : climb (0 + rs.length) o.rightMin (rs ++ rest) = some (rhs, rest) :=
      ihr (Nat.le_refl _) (fun q ts heq => Nat.lt_succ_of_lt (hafter q ts heq))
        (goOn_eq_some_iff.mpr (.inl ⟨hafter, rfl⟩))
    have hgo' : goOn (fuel + rs.length + 1) low lhs (.op o :: (rs ++ rest)) = some r :=
      goOn_eq_some_iff.mpr (.inr ⟨fuel + rs.length, o, rs ++ rest, rhs, rest, rfl, rfl,
        Nat.le_trans hlow hmin, climb_mono (by omega) hright, goOn_mono (by omega) hgo⟩)
    have hleft := ihl (Nat.le_trans hlow hmin) (fun q ts heq => by cases heq; exact Nat.lt_succ_self _) hgo'
    rw [show fuel + (ls ++ .op o :: rs).length = fuel + rs.length + 1 + ls.length by simp; omega]
    simpa using hleft

/-- The reader decides the grammar. -/
theorem parse_eq_some_iff : parse ts = some e ↔ Derives 0 ts e := by
  constructor
  · intro h
    unfold parse at h
    split at h
    next e' hclimb =>
      cases h
      obtain ⟨us, rfl, hderives, -⟩ := (derives_of_climb_goOn _).1 _ _ _ _ hclimb
      rwa [append_nil]
    · cases h
  · intro h
    have hend (min : Nat) : Stops min [] := fun _ _ heq => by cases heq
    have hdone : goOn 0 0 e [] = some (e, []) := goOn_eq_some_iff.mpr (.inl ⟨hend 0, rfl⟩)
    have hclimb := climb_of_derives h (Nat.le_refl 0) (hend 1) hdone
    rw [Nat.zero_add, append_nil] at hclimb
    unfold parse
    rw [hclimb]

/-! ## What is printed -/

theorem derives_tokens (e : Expr) (min : Nat) : Derives min (e.tokens min) e.gist := by
  induction e generalizing min with
  | literal value span => exact .leaf min (.literal value)
  | ident name span => exact .leaf min (.ident name)
  | error span => exact .leaf min .error
  | binary op lhs rhs span ihl ihr =>
    unfold tokens
    dsimp only
    split
    · exact .paren min (.binary (Nat.zero_le _) (ihl _) (ihr _))
    next hmin => exact .binary (Nat.le_of_not_lt hmin) (ihl _) (ihr _)

theorem count_opening_tokens_le (e : Expr) (min : Nat) :
    (e.tokens min).count .opening ≤ (e.tokens 0).count .opening + 1 := by
  cases e with
  | binary op lhs rhs span =>
    unfold tokens
    dsimp only
    rw [if_neg (Nat.not_lt_zero _)]
    split <;> simp
  | _ => simp [tokens]

/-- Whatever is read as an expression has at least the parentheses that are printed. -/
theorem count_opening_le (h : Derives min ts e) : (e.tokens min).count .opening ≤ ts.count .opening := by
  induction h with
  | leaf min l => cases l <;> simp [Leaf.expr, tokens]
  | @paren min ts e _ ih =>
    have hone := count_opening_tokens_le e min
    simp
    omega
  | binary hmin _ _ ihl ihr =>
    unfold tokens
    dsimp only
    rw [if_neg (Nat.not_lt_of_le hmin)]
    simp
    omega

/-! ## Sentences -/

inductive Sentence : List ExprToken → Prop
  | leaf (l : Leaf) : Sentence [.leaf l]
  | paren {ts : List ExprToken} (h : Sentence ts) : Sentence (.opening :: ts ++ [.closing])
  | join {ls rs : List ExprToken} (o : Operator) (hl : Sentence ls) (hr : Sentence rs) :
      Sentence (ls ++ .op o :: rs)

theorem Derives.sentence (h : Derives min ts e) : Sentence ts := by
  induction h with
  | leaf min l => exact .leaf l
  | paren min _ ih => exact .paren ih
  | binary _ _ _ ihl ihr => exact .join _ ihl ihr

theorem Derives.exists_append {u : Expr} (h : Derives min ts e) (hu : ∀ min, Derives min us u) {o : Operator}
    (hmin : min ≤ o.precedence) : ∃ e', Derives min (ts ++ .op o :: us) e' := by
  induction h with
  | leaf min l => exact ⟨_, .binary hmin (.leaf _ l) (hu _)⟩
  | paren min h => exact ⟨_, .binary hmin (.paren _ h) (hu _)⟩
  | @binary min q ls rs lhs rhs hq hl hr _ ihr =>
    by_cases hlt : q.precedence < o.precedence
    · obtain ⟨e', he'⟩ := ihr hlt
      exact ⟨.binary q lhs e' {}, by simpa using binary hq hl he'⟩
    · exact ⟨_, .binary hmin (.binary (Nat.le_of_not_lt hlt) hl hr) (hu _)⟩

theorem Sentence.exists_derives (h : Sentence ts) : (∃ e, Derives 0 ts e) ∧
      ∀ ls lhs o, Derives 0 ls lhs → ∃ e, Derives 0 (ls ++ .op o :: ts) e := by
  induction h with
  | leaf l => exact ⟨⟨_, .leaf 0 l⟩, fun ls lhs o hl => hl.exists_append (.leaf · l) (Nat.zero_le _)⟩
  | paren _ ih =>
    obtain ⟨⟨e, he⟩, -⟩ := ih
    exact ⟨⟨e, .paren 0 he⟩, fun ls lhs o hl => hl.exists_append (.paren · he) (Nat.zero_le _)⟩
  | @join ts us q _ _ iht ihu =>
    obtain ⟨⟨e, he⟩, hafter⟩ := iht
    refine ⟨ihu.2 ts e q he, fun ls lhs o hl => ?_⟩
    obtain ⟨e', he'⟩ := hafter ls lhs o hl
    simpa using ihu.2 _ e' q he'

theorem Sentence.exists_parse (h : Sentence ts) : ∃ e, parse ts = some e := by
  obtain ⟨e, he⟩ := h.exists_derives.1
  exact ⟨e, parse_eq_some_iff.mpr he⟩

/-! ## Pairs of parentheses -/

/-- How many parentheses are open after the tokens. -/
def depth : List ExprToken → Int
  | [] => 0
  | .opening :: ts => depth ts + 1
  | .closing :: ts => depth ts - 1
  | _ :: ts => depth ts

@[simp] theorem depth_append (ts us : List ExprToken) : depth (ts ++ us) = depth ts + depth us := by
  fun_induction depth ts with
  | case1 => simp
  | case2 ts ih => simp only [cons_append, depth, ih]; omega
  | case3 ts ih => simp only [cons_append, depth, ih]; omega
  | case4 t ts hopening hclosing ih => cases t <;> simp_all [depth]

theorem depth_cons_opening (ts : List ExprToken) : depth (.opening :: ts) = depth ts + 1 := rfl

/-- All parentheses that are opened are closed, and no others. An opening and a closing parenthesis make a pair if
what stands between them is balanced. -/
structure Balanced (ts : List ExprToken) : Prop where
  nonneg : ∀ n, 0 ≤ depth (ts.take n)
  depth_eq : depth ts = 0

theorem Balanced.nonneg_of_append (h : Balanced (ts ++ us)) : 0 ≤ depth ts := by
  simpa using h.nonneg ts.length

theorem Sentence.balanced (h : Sentence ts) : Balanced ts := by
  induction h with
  | leaf l => exact ⟨fun n => by cases n <;> simp [depth], rfl⟩
  | @paren ts _ ih =>
    refine ⟨fun n => ?_, by simp [depth, ih.depth_eq]⟩
    cases n with
    | zero => simp [depth]
    | succ n =>
      have hinner := ih.nonneg n
      have hlast : -1 ≤ depth ([ExprToken.closing].take (n - ts.length)) := by
        cases n - ts.length <;> simp [depth]
      rw [cons_append, take_succ_cons, depth_cons_opening, take_append, depth_append]
      omega
  | @join ls rs o _ _ ihl ihr =>
    refine ⟨fun n => ?_, by simp [depth, ihl.depth_eq, ihr.depth_eq]⟩
    have hl := ihl.nonneg n
    rw [take_append, depth_append]
    cases n - ls.length with
    | zero => simpa [depth] using hl
    | succ k =>
      have hr := ihr.nonneg k
      simp only [take_succ_cons, depth]
      omega

theorem Balanced.closes_within {pre : List ExprToken} (h : Balanced (pre ++ .opening :: ts))
    (hmid : Balanced mid) (heq : ts ++ us = mid ++ .closing :: post) :
    ∃ vs, ts = mid ++ .closing :: vs ∧ post = vs ++ us := by
  have hpre := h.nonneg_of_append
  have hdepth := h.depth_eq
  rw [depth_append, depth_cons_opening] at hdepth
  rcases append_eq_append_iff.mp heq with ⟨vs, rfl, -⟩ | ⟨vs, rfl, hvs⟩
  · have hts := hmid.nonneg_of_append
    omega
  · cases vs with
    | nil =>
      rw [append_nil, hmid.depth_eq] at hdepth
      omega
    | cons t vs =>
      obtain ⟨rfl, rfl⟩ := cons.inj hvs
      exact ⟨vs, rfl, rfl⟩

theorem Balanced.eq_of_append_closing (h : Balanced ts) (hmid : Balanced mid)
    (heq : ts ++ [.closing] = mid ++ .closing :: post) : mid = ts ∧ post = [] := by
  rcases append_eq_append_iff.mp heq with ⟨us, rfl, hus⟩ | ⟨us, rfl, hus⟩
  · cases us with
    | nil =>
      obtain ⟨-, rfl⟩ := cons.inj hus
      exact ⟨append_nil ts, rfl⟩
    | cons t us => simp at hus
  · cases us with
    | nil =>
      obtain ⟨-, rfl⟩ := cons.inj hus
      exact ⟨(append_nil mid).symm, rfl⟩
    | cons t us =>
      obtain ⟨rfl, -⟩ := cons.inj hus
      rw [append_cons] at h
      have hdepth := h.nonneg_of_append
      rw [depth_append, hmid.depth_eq] at hdepth
      cases hdepth

theorem Sentence.delete (h : Sentence ts) {pre : List ExprToken}
    (hts : ts = pre ++ .opening :: (mid ++ .closing :: post)) (hmid : Balanced mid) :
    Sentence (pre ++ (mid ++ post)) := by
  induction h generalizing pre post with
  | leaf l => cases pre <;> simp at hts
  | @paren ts hinner ih =>
    cases pre with
    | nil =>
      obtain ⟨rfl, rfl⟩ := hinner.balanced.eq_of_append_closing hmid (cons.inj hts).2
      simpa using hinner
    | cons t pre =>
      obtain ⟨rfl, hinside⟩ := cons.inj hts
      rcases append_eq_append_iff.mp hinside with ⟨us, rfl, hus⟩ | ⟨us, rfl, hus⟩
      · cases us <;> simp at hus
      · cases us with
        | nil => cases hus
        | cons t us =>
          obtain ⟨rfl, hrest⟩ := cons.inj hus
          obtain ⟨vs, rfl, rfl⟩ := hinner.balanced.closes_within hmid hrest.symm
          simpa using paren (ih rfl)
  | @join ls rs o hl hr ihl ihr =>
    rcases append_eq_append_iff.mp hts with ⟨us, rfl, hus⟩ | ⟨us, rfl, hus⟩
    · cases us with
      | nil => cases hus
      | cons t us =>
        obtain ⟨rfl, rfl⟩ := cons.inj hus
        simpa using join o hl (ihr rfl)
    · cases us with
      | nil => cases hus
      | cons t us =>
        obtain ⟨rfl, hrest⟩ := cons.inj hus
        obtain ⟨vs, rfl, rfl⟩ := hl.balanced.closes_within hmid hrest.symm
        simpa using join o (ihl rfl) hr

/-! ## Reading back -/

/-- A printed expression is read back as it is but for its places. Without one pair of its parentheses it can still
be read, but as another expression. -/
theorem parentheses_necessary (e : Expr) :
    parse (e.tokens 0) = some e.gist ∧
      ∀ pre mid post, e.tokens 0 = pre ++ .opening :: (mid ++ .closing :: post) → Balanced mid →
        ∃ e', parse (pre ++ (mid ++ post)) = some e' ∧ e' ≠ e.gist := by
  have hprinted := derives_tokens e 0
  refine ⟨parse_eq_some_iff.mpr hprinted, fun pre mid post htokens hmid => ?_⟩
  obtain ⟨e', he'⟩ := (hprinted.sentence.delete htokens hmid).exists_parse
  refine ⟨e', he', ?_⟩
  rintro rfl
  -- It has one parenthesis less than is printed.
  have hcount := count_opening_le (parse_eq_some_iff.mp he')
  have hne : ExprToken.closing ≠ .opening := ExprToken.noConfusion
  rw [tokens_gist, htokens] at hcount
  simp only [List.count_append, List.count_cons_self, List.count_cons_of_ne hne] at hcount
  omega

def sumTimes : Expr :=
  .binary .mul (.binary .add (.ofName "a") (.ofName "b") {}) (.ofName "c") {}

/-- Without its parentheses the product is read as a sum. -/
theorem parentheses_necessary_sumTimes :
    sumTimes.tokens 0 =
        [.opening, .leaf (.ident "a"), .op .add, .leaf (.ident "b"), .closing, .op .mul, .leaf (.ident "c")] ∧
      ∃ e', parse [.leaf (.ident "a"), .op .add, .leaf (.ident "b"), .op .mul, .leaf (.ident "c")] = some e' ∧
        e' ≠ sumTimes := by
  have hmid : Balanced [.leaf (.ident "a"), .op .add, .leaf (.ident "b")] :=
    ⟨fun n => by rcases n with _ | _ | _ | n <;> simp [depth], rfl⟩
  exact ⟨rfl, (parentheses_necessary sumTimes).2 [] _ [.op .mul, .leaf (.ident "c")] rfl hmid⟩

end Expr

end TreeCompiler
