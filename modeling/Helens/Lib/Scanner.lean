import Helens.Lib.Blocks

/-! Resumable scanners that report texts by marks. `scan` works through one buffer with marks that
are offsets into it; `parse` works through a whole text with marks that are its positions. The two
agree on every buffer that does not begin inside a reported text. -/

namespace Lib.Scanner
open Lib.Blocks List Function

variable {σ β R T D : Type}

/-- What a transition does at the element at hand. -/
inductive Act (R T : Type) where
  /-- Note the position in `r`. -/
  | set (r : R)
  /-- Note in `r` how far the position is behind the mark `start`. -/
  | measure (r start : R)
  | report (t : T)
  deriving DecidableEq

inductive Span (R : Type) where
  | upTo (r : R)
  /-- From a mark on, as long as measured in `n`. -/
  | counted (r n : R)

structure Edge (σ R T : Type) where
  target : σ
  acts : List (Act R T)
  /-- The machine stops behind this element. -/
  stop : Bool
  deriving DecidableEq

/-- A machine over elements `β` with registers `R`, reports `T` and data `D`.
`handle` is given the texts of a report and the buffer from the element at hand on. -/
structure Machine (σ β R T D : Type) where
  step : σ → β → Option (Edge σ R T)
  spans : T → List (Span R)
  handle : T → List (List β) → List β → D → D
  /-- The report does not depend on what follows the element at hand. -/
  settled : T → List (List β) → β → Bool
  handle_settled : ∀ t texts b rest d, settled t texts b = true →
    handle t texts (b :: rest) d = handle t texts [b] d

/-! ## Tables of bytes -/

/-- One entry of a row: the bytes from `lo` to `hi` lead to `target`. A guarded
entry counts only under the machine's guard. -/
structure Range (A : Type) where
  lo : Nat
  hi : Nat
  target : Nat
  actions : List A
  guarded : Bool

def go {A : Type} (lo hi target : Nat) : Range A := ⟨lo, hi, target, [], false⟩

def act {A : Type} (lo hi target : Nat) (actions : List A) : Range A :=
  ⟨lo, hi, target, actions, false⟩

def rel {A : Type} (b target : Nat) (actions : List A) : Range A := ⟨b, b, target, actions, true⟩

def also {A : Type} (r : Range A) (row : List (Range A)) : List (Range A) :=
  row.takeWhile (fun x => x.lo < r.lo) ++ r :: row.dropWhile fun x => x.lo < r.lo

def cut {A : Type} (b target : Nat) (row : List (Range A)) : List (Range A) :=
  row.flatMap fun r =>
    if r.lo ≤ b ∧ b ≤ r.hi then
      (if r.lo < b then [{ r with hi := b - 1 }] else []) ++
        { r with lo := b, hi := b, target } :: if b < r.hi then [{ r with lo := b + 1 }] else []
    else [r]

def Range.covers {A : Type} (guard : Bool) (b : UInt8) (r : Range A) : Bool :=
  decide (r.lo ≤ b.toNat) && decide (b.toNat ≤ r.hi) && (guard || !r.guarded)

def lookup {A : Type} (rows : List (List (Range A))) (guard : Bool) (cs : Nat) (b : UInt8) :
    Option (Range A) :=
  (rows.getD cs []).find? (Range.covers guard b)

theorem mem_rows_of_lookup {A : Type} {rows : List (List (Range A))} {guard : Bool} {cs : Nat}
    {b : UInt8} {r : Range A} (h : lookup rows guard cs b = some r) : ∃ row ∈ rows, r ∈ row := by
  have hr := mem_of_find?_eq_some h
  rw [getD_eq_getElem?_getD] at hr
  cases hrow : rows[cs]? with
  | none =>
    rw [hrow] at hr
    cases hr
  | some row =>
    rw [hrow] at hr
    exact ⟨row, mem_of_getElem? hrow, hr⟩

theorem find_covers_guard {A : Type} {row : List (Range A)}
    (hrow : row.Pairwise fun a a' => a.guarded = true → a'.guarded = true) (guard)
    {b : UInt8} {r : Range A} (h : row.find? (Range.covers false b) = some r) :
    row.find? (Range.covers guard b) = some r := by
  induction row with
  | nil => cases h
  | cons a row ih =>
    obtain ⟨hfirst, hrest⟩ := pairwise_cons.mp hrow
    cases hg : a.guarded with
    | true =>
      -- everything in the row is guarded, so nothing counts without the guard
      have hall := List.find?_some h
      rcases mem_cons.mp (mem_of_find?_eq_some h) with hr | hr
      · simp [Range.covers, hr, hg] at hall
      · simp [Range.covers, hfirst r hr hg] at hall
    | false =>
      have hsame : a.covers guard b = a.covers false b := by simp [Range.covers, hg]
      rw [List.find?_cons] at h ⊢
      rw [hsame]
      split at h
      · exact h
      · exact ih hrest h

theorem lookup_guard {A : Type} {rows : List (List (Range A))}
    (hrows : ∀ row ∈ rows, row.Pairwise fun a a' => a.guarded = true → a'.guarded = true)
    (guard) {cs : Nat} {b : UInt8} {r : Range A} (h : lookup rows false cs b = some r) :
    lookup rows guard cs b = some r := by
  refine find_covers_guard ?_ guard h
  rw [getD_eq_getElem?_getD]
  cases hrow : rows[cs]? with
  | none => exact List.Pairwise.nil
  | some row => exact hrows row (mem_of_getElem? hrow)

variable [DecidableEq R] (M : Machine σ β R T D)

/-! ## One buffer -/

structure State (σ R D : Type) where
  cs : σ
  regs : R → Nat
  data : D

inductive Outcome (σ R D : Type) where
  /-- The buffer is used up. -/
  | more (s : State σ R D)
  /-- Stopped behind the first `n` elements. -/
  | stop (n : Nat) (s : State σ R D)
  /-- No transition at element `n`. -/
  | reject (n : Nat) (s : State σ R D)
  /-- A text of negative length was to be reported. -/
  | overrun

def Span.text (regs : R → Nat) (buf : List β) (p : Nat) : Span R → Option (List β)
  | .upTo r => if regs r ≤ p then some (slice buf (regs r) (p - regs r)) else none
  | .counted r n => some (slice buf (regs r) (regs n))

def perform (buf : List β) (p : Nat) (left : List β) :
    List (Act R T) → (R → Nat) → D → Option ((R → Nat) × D)
  | [], regs, d => some (regs, d)
  | .set r :: acts, regs, d => perform buf p left acts (Function.update regs r p) d
  | .measure r start :: acts, regs, d =>
    perform buf p left acts (Function.update regs r (p - regs start)) d
  | .report t :: acts, regs, d =>
    match (M.spans t).mapM (Span.text regs buf p) with
    | none => none
    | some texts => perform buf p left acts regs (M.handle t texts left d)

def scan (buf : List β) : List β → Nat → State σ R D → Outcome σ R D
  | [], _, s => .more s
  | b :: rest, p, s =>
    match M.step s.cs b with
    | none => .reject p s
    | some e =>
      match perform M buf p (b :: rest) e.acts s.regs s.data with
      | none => .overrun
      | some (regs, data) =>
        if e.stop then .stop (p + 1) ⟨e.target, regs, data⟩
        else scan buf rest (p + 1) ⟨e.target, regs, data⟩

/-! ## A whole text -/

inductive Mark where
  | pos (a : Nat)
  | size (a n : Nat)

/-- The parse of the text so far; `tokens` has the first position of every
reported text and the position of its report. -/
structure Parse (σ R D : Type) where
  cs : σ
  marks : R → Option Mark
  data : D
  tokens : List (Nat × Nat)

def Span.token (marks : R → Option Mark) (w : List β) (p : Nat) : Span R → Option (Nat × List β)
  | .upTo r =>
    match marks r with
    | some (.pos a) => some (a, slice w a (p - a))
    | _ => none
  | .counted r n =>
    match marks r, marks n with
    | some (.pos a), some (.size a' k) => if a' = a then some (a, slice w a k) else none
    | _, _ => none

def measured (p : Nat) : Option Mark → Option Mark
  | some (.pos a) => some (.size a (p - a))
  | _ => none

def performAt (w : List β) (p : Nat) (b : β) : List (Act R T) → Parse σ R D → Option (Parse σ R D)
  | [], g => some g
  | .set r :: acts, g =>
    performAt w p b acts { g with marks := Function.update g.marks r (some (.pos p)) }
  | .measure r start :: acts, g =>
    performAt w p b acts { g with marks := Function.update g.marks r (measured p (g.marks start)) }
  | .report t :: acts, g =>
    match (M.spans t).mapM (Span.token g.marks w p) with
    | none => none
    | some found =>
      if M.settled t (found.map Prod.snd) b then
        performAt w p b acts
          { g with
            data := M.handle t (found.map Prod.snd) [b] g.data
            tokens := found.map (fun x => (x.1, p)) ++ g.tokens }
      else none

/-- Parse the elements left of the text `w`, the first of which is at `p`: the
machine has to stop at the last one. -/
def parse (w : List β) : List β → Nat → Parse σ R D → Option (Parse σ R D)
  | [], _, _ => none
  | b :: rest, p, g =>
    match M.step g.cs b with
    | none => none
    | some e =>
      match performAt M w p b e.acts g with
      | none => none
      | some g =>
        if e.stop then if rest.isEmpty then some { g with cs := e.target } else none
        else parse w rest (p + 1) { g with cs := e.target }

/-- No reported text has position `k` inside or at its end. -/
def Clean (k : Nat) (tokens : List (Nat × Nat)) : Prop := ∀ t ∈ tokens, t.1 < k → t.2 < k
  deriving Decidable

/-! ## What a parse keeps -/

def Before (q : Nat) (marks : R → Option Mark) : Prop :=
  (∀ r a, marks r = some (.pos a) → a < q) ∧ ∀ r a n, marks r = some (.size a n) → a < q ∧ a + n < q

variable {M}

variable {marks : R → Option Mark} {w : List β} {g gf : Parse σ R D}

omit [DecidableEq R] in
theorem Before.mono (h : Before q marks) (hq : q ≤ q') :
    Before q' marks := by
  refine ⟨fun r a hr => Nat.lt_of_lt_of_le (h.1 r a hr) hq, fun r a n hr => ?_⟩
  have := h.2 r a n hr
  omega

theorem Before.set (h : Before (p + 1) marks) (r) :
    Before (p + 1) (update marks r (some (.pos p))) := by
  constructor
  · intro r' a ha
    by_cases hr : r' = r
    · rw [hr, update_self] at ha
      cases ha
      exact Nat.lt_succ_self p
    · rw [update_of_ne hr] at ha
      exact h.1 r' a ha
  · intro r' a n ha
    by_cases hr : r' = r
    · rw [hr, update_self] at ha
      cases ha
    · rw [update_of_ne hr] at ha
      exact h.2 r' a n ha

theorem measured_eq (h : measured p m = some m') :
    ∃ a, m = some (.pos a) ∧ m' = .size a (p - a) := by
  cases m with
  | none => cases h
  | some m =>
    cases m with
    | pos a =>
      cases h
      exact ⟨a, rfl, rfl⟩
    | size a n => cases h

theorem Before.measure (h : Before (p + 1) marks)
    (r start) : Before (p + 1) (update marks r (measured p (marks start))) := by
  constructor
  · intro r' a ha
    by_cases hr : r' = r
    · rw [hr, update_self] at ha
      obtain ⟨a', _, hm⟩ := measured_eq ha
      cases hm
    · rw [update_of_ne hr] at ha
      exact h.1 r' a ha
  · intro r' a n ha
    by_cases hr : r' = r
    · rw [hr, update_self] at ha
      obtain ⟨a', hs, hm⟩ := measured_eq ha
      cases hm
      have := h.1 start a hs
      omega
    · rw [update_of_ne hr] at ha
      exact h.2 r' a n ha

theorem performAt_report (h : performAt M w p b (.report t :: acts) g = some g') :
    ∃ found, (M.spans t).mapM (Span.token g.marks w p) = some found ∧
      M.settled t (found.map Prod.snd) b = true ∧
      performAt M w p b acts
        { g with
          data := M.handle t (found.map Prod.snd) [b] g.data
          tokens := found.map (fun x => (x.1, p)) ++ g.tokens } = some g' := by
  rw [performAt] at h
  split at h
  · cases h
  · rename_i found hfound
    split at h
    · rename_i hsettled
      exact ⟨found, hfound, hsettled, h⟩
    · cases h

theorem performAt_before (h : performAt M w p b acts g = some g')
    (hg : Before (p + 1) g.marks) : Before (p + 1) g'.marks := by
  induction acts generalizing g with
  | nil =>
    cases h
    exact hg
  | cons act acts ih =>
    cases act with
    | set r => exact ih h (hg.set r)
    | measure r start => exact ih h (hg.measure r start)
    | report t =>
      obtain ⟨found, _, _, h⟩ := performAt_report h
      exact ih h hg

theorem performAt_tokens (h : performAt M w p b acts g = some g') :
    g.tokens ⊆ g'.tokens := by
  induction acts generalizing g with
  | nil =>
    cases h
    exact List.Subset.refl _
  | cons act acts ih =>
    cases act with
    | set r =>
      have hsub := ih h
      exact hsub
    | measure r start =>
      have hsub := ih h
      exact hsub
    | report t =>
      obtain ⟨found, _, _, h⟩ := performAt_report h
      exact List.Subset.trans (subset_append_right _ _) (ih h)

theorem parse_cons (h : parse M w (b :: rest) p g = some gf) :
    ∃ e g', M.step g.cs b = some e ∧ performAt M w p b e.acts g = some g' ∧
      (e.stop = true ∧ rest = [] ∧ gf = { g' with cs := e.target } ∨
        e.stop = false ∧ parse M w rest (p + 1) { g' with cs := e.target } = some gf) := by
  rw [parse] at h
  split at h
  · cases h
  · rename_i e he
    split at h
    · cases h
    · rename_i g' hg'
      refine ⟨e, g', he, hg', ?_⟩
      cases hstop : e.stop with
      | true =>
        rw [hstop, if_pos rfl] at h
        split at h
        · rename_i hrest
          cases h
          exact .inl ⟨rfl, isEmpty_iff.mp hrest, rfl⟩
        · cases h
      | false =>
        rw [hstop] at h
        exact .inr ⟨rfl, h⟩

theorem parse_go (he : M.step g.cs b = some e)
    (hg : performAt M w p b e.acts g = some g') (hstop : e.stop = false) :
    parse M w (b :: rest) p g = parse M w rest (p + 1) { g' with cs := e.target } := by
  rw [parse, he]
  dsimp only
  rw [hg]
  dsimp only
  rw [hstop, if_neg (by decide)]

theorem parse_end (he : M.step g.cs b = some e) (hg : performAt M w p b e.acts g = some g')
    (hstop : e.stop = true) : parse M w [b] p g = some { g' with cs := e.target } := by
  rw [parse, he]
  dsimp only
  rw [hg]
  dsimp only
  rw [hstop, if_pos rfl]
  rfl

theorem parse_tokens (h : parse M w rest p g = some gf) : g.tokens ⊆ gf.tokens := by
  induction rest generalizing p g with
  | nil => cases h
  | cons b rest ih =>
    obtain ⟨e, g', _, hg', hend⟩ := parse_cons h
    have hone := performAt_tokens hg'
    rcases hend with ⟨_, _, rfl⟩ | ⟨_, hrest⟩
    · exact hone
    · have hmore := ih hrest
      exact List.Subset.trans hone hmore

theorem performAt_data {P : D → Prop} (hP : ∀ t texts left d, P d → P (M.handle t texts left d))
    (h : performAt M w p b acts g = some g') (hg : P g.data) : P g'.data := by
  induction acts generalizing g with
  | nil =>
    cases h
    exact hg
  | cons act acts ih =>
    cases act with
    | set r => exact ih h hg
    | measure r start => exact ih h hg
    | report t =>
      obtain ⟨found, _, _, h⟩ := performAt_report h
      exact ih h (hP _ _ _ _ hg)

theorem parse_data {P : D → Prop} (hP : ∀ t texts left d, P d → P (M.handle t texts left d))
    (h : parse M w rest p g = some gf) (hg : P g.data) : P gf.data := by
  induction rest generalizing p g with
  | nil => cases h
  | cons b rest ih =>
    obtain ⟨e, g', _, hg', hend⟩ := parse_cons h
    have hone := performAt_data hP hg' hg
    rcases hend with ⟨_, _, rfl⟩ | ⟨_, hrest⟩
    · exact hone
    · exact ih hrest hone

theorem parse_mono {step' : σ → β → Option (Edge σ R T)}
    (hstep : ∀ cs b e, M.step cs b = some e → step' cs b = some e)
    (h : parse M w rest p g = some gf) : parse { M with step := step' } w rest p g = some gf := by
  induction rest generalizing p g with
  | nil => cases h
  | cons b rest ih =>
    obtain ⟨e, g', he, hg', hend⟩ := parse_cons h
    have hperf : ∀ acts g, performAt { M with step := step' } w p b acts g =
        performAt M w p b acts g := by
      intro acts
      induction acts with
      | nil => intro g; rfl
      | cons act acts ihacts => intro g; cases act <;> simp only [performAt, ihacts]
    rw [parse]
    dsimp only
    rw [hstep _ _ _ he]
    dsimp only
    rw [hperf, hg']
    rcases hend with ⟨hstop, hrest, hgf⟩ | ⟨hstop, hrest⟩
    · simp [hstop, hrest, hgf]
    · simp [hstop, ih hrest]

theorem parse_target (h : parse M w rest p g = some gf) :
    ∃ cs b e, M.step cs b = some e ∧ e.stop = true ∧ gf.cs = e.target := by
  induction rest generalizing p g with
  | nil => cases h
  | cons b rest ih =>
    obtain ⟨e, g', he, _, ⟨hstop, _, rfl⟩ | ⟨_, hrest⟩⟩ := parse_cons h
    · exact ⟨g.cs, b, e, he, hstop, rfl⟩
    · exact ih hrest

/-- What holds of the targets of transitions that do not stop holds behind a buffer
that is used up. -/
theorem scan_more_target {P : σ → Prop}
    (hP : ∀ cs b e, M.step cs b = some e → e.stop = false → P e.target) {buf rest : List β}
    (h : scan M buf rest p s = .more s') (hs : P s.cs) : P s'.cs := by
  induction rest generalizing p s with
  | nil =>
    cases h
    exact hs
  | cons b rest ih =>
    rw [scan] at h
    split at h
    · cases h
    · rename_i e he
      split at h
      · cases h
      · split at h
        · cases h
        · rename_i hstop
          exact ih h (hP _ _ e he (by simpa using hstop))

end Lib.Scanner
