import Helens.Lib.Scanner

/-! A text that comes in buffers. A scanner with registers works on one buffer at a
time; a parse has the whole text. The two agree as long as no buffer ends inside a
token that is reported. -/

namespace Lib.Scanner
open Lib.Blocks List

variable {σ β R T D : Type} [DecidableEq R] {M : Machine σ β R T D}

/-! ## Buffers of a text -/

/-- The registers of a buffer that begins at position `k` of the text hold what the
marks made since then say. -/
def Agree (k : Nat) (marks : R → Option Mark) (regs : R → Nat) : Prop :=
  (∀ r a, marks r = some (.pos a) → k ≤ a → regs r = a - k) ∧
    ∀ r a n, marks r = some (.size a n) → k ≤ a → regs r = n

variable {marks : R → Option Mark} {regs : R → Nat}

omit [DecidableEq R] in
theorem agree_of_before (h : Before k marks) (regs : R → Nat) : Agree k marks regs := by
  refine ⟨fun r a hr hk => ?_, fun r a n hr hk => ?_⟩
  · have := h.1 r a hr
    omega
  · have := h.2 r a n hr
    omega

theorem Agree.update (h : Agree k marks regs) (r)
    (hpos : ∀ a, mark = some (.pos a) → k ≤ a → v = a - k)
    (hsize : ∀ a n, mark = some (.size a n) → k ≤ a → v = n) :
    Agree k (Function.update marks r mark) (Function.update regs r v) := by
  constructor
  · intro r' a ha hk
    by_cases hr : r' = r
    · rw [hr, Function.update_self] at ha ⊢
      exact hpos a ha hk
    · rw [Function.update_of_ne hr] at ha ⊢
      exact h.1 r' a ha hk
  · intro r' a n ha hk
    by_cases hr : r' = r
    · rw [hr, Function.update_self] at ha ⊢
      exact hsize a n ha hk
    · rw [Function.update_of_ne hr] at ha ⊢
      exact h.2 r' a n ha hk

theorem Agree.set (h : Agree k marks regs) (r) :
    Agree k (Function.update marks r (some (.pos (k + p)))) (Function.update regs r p) := by
  apply h.update
  · rintro a ⟨⟩ _
    exact (Nat.add_sub_cancel_left k p).symm
  · rintro a n ⟨⟩

theorem Agree.measure (h : Agree k marks regs) (r start) :
    Agree k (Function.update marks r (measured (k + p) (marks start)))
      (Function.update regs r (p - regs start)) := by
  apply h.update
  · intro a ha _
    obtain ⟨a', _, hm⟩ := measured_eq ha
    cases hm
  · intro a n ha hk
    obtain ⟨a', hs, hm⟩ := measured_eq ha
    cases hm
    rw [h.1 start a hs hk]
    omega

/-- A text that lies in the part `v` already scanned is the same in the buffer. -/
theorem slice_buffer (u v x z : List β) (a n) (ha : u.length ≤ a)
    (hn : a + n ≤ u.length + v.length) :
    slice (u ++ (v ++ x)) a n = slice (v ++ z) (a - u.length) n := by
  obtain ⟨i, rfl⟩ := Nat.exists_eq_add_of_le ha
  rw [slice, drop_length_add_append, Nat.add_sub_cancel_left]
  change slice (v ++ x) i n = slice (v ++ z) i n
  rw [slice_append_left v x i n (by omega), slice_append_left v z i n (by omega)]

omit [DecidableEq R] in
theorem Span.text_of_token {u v x z : List β} (ha : Agree u.length marks regs)
    (hb : Before (u.length + v.length + 1) marks) {s : Span R} {a : Nat} {l : List β}
    (h : s.token marks (u ++ (v ++ x)) (u.length + v.length) = some (a, l)) (hk : u.length ≤ a) :
    s.text regs (v ++ z) v.length = some l := by
  cases s with
  | upTo r =>
    rw [Span.token] at h
    split at h
    · rename_i a' hr
      cases h
      have hlt := hb.1 r a hr
      have hreg := ha.1 r a hr hk
      rw [Span.text, hreg, if_pos (by omega), slice_buffer u v x z a _ hk (by omega)]
      congr 2
      omega
    · cases h
  | counted r n =>
    rw [Span.token] at h
    split at h
    · rename_i a₁ a₂ k hr hn
      split at h
      · rename_i heq
        subst heq
        cases h
        have hlt := hb.2 n _ k hn
        rw [Span.text, ha.1 r _ hr hk, ha.2 n _ k hn hk, slice_buffer u v x z _ k hk (by omega)]
      · cases h
    · cases h

omit [DecidableEq R] in
theorem texts_of_tokens {u v x z : List β} (ha : Agree u.length marks regs)
    (hb : Before (u.length + v.length + 1) marks) {spans : List (Span R)}
    {found : List (Nat × List β)}
    (h : spans.mapM (Span.token marks (u ++ (v ++ x)) (u.length + v.length)) = some found)
    (hk : ∀ t ∈ found, u.length ≤ t.1) :
    spans.mapM (Span.text regs (v ++ z) v.length) = some (found.map Prod.snd) := by
  induction spans generalizing found with
  | nil =>
    cases h
    rfl
  | cons s spans ih =>
    rw [mapM_cons] at h ⊢
    obtain ⟨⟨a, l⟩, hs, h⟩ := Option.bind_eq_some_iff.mp h
    obtain ⟨rest, hrest, h⟩ := Option.bind_eq_some_iff.mp h
    cases h
    rw [Span.text_of_token ha hb hs (hk _ (mem_cons_self ..)),
      ih hrest fun t ht => hk t (mem_cons_of_mem _ ht)]
    rfl

theorem perform_of_performAt {u v x z : List β} {b : β} (left) {acts : List (Act R T)}
    {g g' : Parse σ R D}
    (h : performAt M (u ++ (v ++ x)) (u.length + v.length) b acts g = some g')
    (hc : Clean u.length g'.tokens) (hb : Before (u.length + v.length + 1) g.marks)
    (ha : Agree u.length g.marks regs) :
    ∃ regs', perform M (v ++ z) v.length (b :: left) acts regs g.data = some (regs', g'.data) ∧
      Agree u.length g'.marks regs' := by
  induction acts generalizing g regs with
  | nil =>
    cases h
    exact ⟨regs, rfl, ha⟩
  | cons act acts ih =>
    cases act with
    | set r =>
      have hrest := ih h (hb.set r) (ha.set r)
      exact hrest
    | measure r start =>
      have hrest := ih h (hb.measure r start) (ha.measure r start)
      exact hrest
    | report t =>
      obtain ⟨found, hfound, hsettled, h⟩ := performAt_report h
      -- the report stands in this buffer, so its texts begin in it
      have hk : ∀ t ∈ found, u.length ≤ t.1 := by
        intro t ht
        by_contra hlt
        have hmem := performAt_tokens h
          (mem_append_left g.tokens (mem_map_of_mem (f := fun x => (x.1, _)) ht))
        have := hc _ hmem (by omega)
        dsimp only at this
        omega
      obtain ⟨regs', hp, hag⟩ := ih h hb ha
      refine ⟨regs', ?_, hag⟩
      rw [perform, texts_of_tokens ha hb hfound hk]
      dsimp only
      rw [M.handle_settled t _ b left g.data hsettled]
      exact hp

theorem scan_more
    (h : parse M (u ++ (v ++ (x ++ y))) (x ++ y) (u.length + v.length) g = some gf) (hy : y ≠ [])
    (hc : Clean u.length gf.tokens) (hb : Before (u.length + v.length) g.marks)
    (ha : Agree u.length g.marks s.regs) (hcs : s.cs = g.cs) (hd : s.data = g.data) :
    ∃ s' g', scan M (v ++ x) x v.length s = .more s' ∧
      parse M (u ++ (v ++ (x ++ y))) y (u.length + (v ++ x).length) g' = some gf ∧
      Before (u.length + (v ++ x).length) g'.marks ∧ s'.cs = g'.cs ∧ s'.data = g'.data := by
  induction x generalizing v g s with
  | nil => exact ⟨s, g, rfl, by simpa using h, by simpa using hb, hcs, hd⟩
  | cons b x ih =>
    obtain ⟨e, g₁, hstep, hp, ⟨_, hnil, _⟩ | ⟨hstop, hrest⟩⟩ := parse_cons h
    · exact absurd (append_eq_nil_iff.mp hnil).2 hy
    · have hb' := hb.mono (Nat.le_succ _)
      have hc' : Clean u.length g₁.tokens := fun t ht => hc t (parse_tokens hrest ht)
      obtain ⟨regs, hperf, hag⟩ := perform_of_performAt (z := b :: x) x hp hc' hb' ha
      have hassoc : v ++ b :: x = (v ++ [b]) ++ x := by simp
      have htext : v ++ (b :: x ++ y) = (v ++ [b]) ++ (x ++ y) := by simp
      have hlen : u.length + v.length + 1 = u.length + (v ++ [b]).length := by simp; omega
      rw [htext, hlen] at hrest
      have hb₁ := performAt_before hp hb'
      rw [hlen] at hb₁
      obtain ⟨s', g', hscan, hparse, hbef, h1, h2⟩ :=
        ih (s := ⟨e.target, regs, g₁.data⟩) hrest hb₁ hag rfl rfl
      refine ⟨s', g', ?_, ?_, ?_, h1, h2⟩
      · rw [scan, hcs, hstep]
        dsimp only
        rw [hd, hperf]
        dsimp only
        rw [hstop, if_neg (by decide), hassoc]
        simpa using hscan
      · rw [htext, hassoc]
        exact hparse
      · rw [hassoc]
        exact hbef

theorem scan_stop (z) (h : parse M (u ++ (v ++ x)) x (u.length + v.length) g = some gf)
    (hc : Clean u.length gf.tokens) (hb : Before (u.length + v.length) g.marks)
    (ha : Agree u.length g.marks s.regs) (hcs : s.cs = g.cs) (hd : s.data = g.data) :
    ∃ s', scan M (v ++ (x ++ z)) (x ++ z) v.length s = .stop (v ++ x).length s' ∧
      s'.cs = gf.cs ∧ s'.data = gf.data := by
  induction x generalizing v g s with
  | nil => cases h
  | cons b x ih =>
    obtain ⟨e, g₁, hstep, hp, hend⟩ := parse_cons h
    have hb' := hb.mono (Nat.le_succ _)
    have hc' : Clean u.length g₁.tokens := by
      rcases hend with ⟨_, _, rfl⟩ | ⟨_, hrest⟩
      · exact hc
      · exact fun t ht => hc t (parse_tokens hrest ht)
    obtain ⟨regs, hperf, hag⟩ := perform_of_performAt (z := b :: (x ++ z)) (x ++ z) hp hc' hb' ha
    have hone : scan M (v ++ (b :: x ++ z)) (b :: x ++ z) v.length s =
        if e.stop then .stop (v.length + 1) ⟨e.target, regs, g₁.data⟩
        else scan M (v ++ (b :: x ++ z)) (x ++ z) (v.length + 1) ⟨e.target, regs, g₁.data⟩ := by
      rw [cons_append, scan, hcs, hstep]
      dsimp only
      rw [hd, hperf]
    rcases hend with ⟨hstop, hx, rfl⟩ | ⟨hstop, hrest⟩
    · refine ⟨⟨e.target, regs, g₁.data⟩, ?_, rfl, rfl⟩
      rw [hone, hstop, if_pos rfl, hx, length_append, length_singleton]
    · have htext : v ++ b :: x = (v ++ [b]) ++ x := by simp
      have hlen : u.length + v.length + 1 = u.length + (v ++ [b]).length := by simp; omega
      have hbuf : v ++ (b :: x ++ z) = (v ++ [b]) ++ (x ++ z) := by simp
      rw [htext, hlen] at hrest
      have hb₁ := performAt_before hp hb'
      rw [hlen] at hb₁
      obtain ⟨s', hscan, h1, h2⟩ :=
        ih (s := ⟨e.target, regs, g₁.data⟩) hrest hb₁ hag rfl rfl
      refine ⟨s', ?_, h1, h2⟩
      rw [hone, hstop, if_neg (by decide), hbuf, htext]
      simpa using hscan

end Lib.Scanner
