import Helens.Http
import Helens.Stream
import Helens.Lib.ScannerBuffers

/-! What `HttpSession::recvRequest` and `HttpConnection::recvResponse` share: a
generated parser that is run over what every read brings, until it has seen the end
of a header block. -/

namespace Helens.Http
open Lib.StateError Lib.Segments Lib.Scanner Helens.Stream List

/-! ## Reads -/

def failed {α : Type} : Net (Option α) := do
  Stream.close
  return none

def recvFixed (lib : Library) (length : Int) (rest : List UInt8) : Net (Option (List UInt8)) := do
  if length > 0 then
    if length > lib.maxSize then throw .lengthError
    else
      let body := rest.take length.toNat
      if length - rest.length > 0 then
        let (rt, x) ← Stream.readFixSize (length - rest.length).toNat
        if rt ≤ 0 then failed else return some (body ++ x)
      else return some body
  else return some []

theorem recvFixed_eq {segs : List (List UInt8)} {k : Nat} {body z w more : List UInt8} {c : Conn}
    (hc : Delivered segs k c) (hs : segs.flatten.drop k = w ++ more) (hbody : body = z ++ w)
    (hfits : body.length < 2 ^ 63) (hmax : body.length ≤ lib.maxSize)
    (hw : w ≠ [] → 0 < toInt32 w.length) :
    ∃ c', (recvFixed lib body.length z).run c = .ok (some body) c' ∧
      Delivered segs (k + w.length) c' := by
  have hsum : body.length = z.length + w.length := by rw [hbody, length_append]
  have htake : z.take body.length = z := take_of_length_le (by omega)
  rw [recvFixed, Int.toNat_natCast, htake]
  by_cases hzero : body = []
  · obtain ⟨_, hw0⟩ := append_eq_nil_iff.mp (hbody.symm.trans hzero)
    refine ⟨c, ?_, by rw [hw0]; exact hc⟩
    rw [hzero]
    rfl
  · have hpos : 0 < body.length := length_pos_iff.mpr hzero
    rw [if_pos (by omega), if_neg (by omega)]
    by_cases hw0 : w = []
    · refine ⟨c, ?_, by rw [hw0]; exact hc⟩
      rw [if_neg (by rw [hsum, hw0]; simp), hbody, hw0, append_nil]
      rfl
    · have hwpos := length_pos_iff.mpr hw0
      obtain ⟨c', hr, hc'⟩ := hc.readFixSize hs (by omega)
      have hleft : (body.length : Int) - z.length = w.length := by omega
      refine ⟨c', ?_, hc'⟩
      rw [hleft, if_pos (by omega), Int.toNat_natCast, run_bind_ok hr]
      dsimp only
      rw [if_neg (Int.not_le.mpr (hw hw0)), ← hbody]
      rfl

/-- Where the reads into `n` bytes end that begin at position `k` of `segs` and
before `stop`. -/
def readEnds (n : Nat) (segs : List (List UInt8)) (stop : Nat) : Nat → Nat → List Nat
  | 0, _ => []
  | fuel + 1, k =>
    if k < stop then
      (k + (readAt n segs k).length) :: readEnds n segs stop fuel (k + (readAt n segs k).length)
    else []

/-- A read for the header block of `len` bytes at `o` ends at `e`: outside the reported texts, or
behind the block, and not with a full buffer. -/
def EndsWell (buffSize o len : Nat) (tokens : List (Nat × Nat)) (e : Nat) : Prop :=
  if e < o + len then Clean (e - o) tokens ∧ toInt32 buffSize ≠ 0
  else ((e - (o + len) : Nat) : Int) ≠ toInt32 buffSize
  deriving Decidable

theorem pos_of_endsWell {buffSize o len k : Nat} {segs : List (List UInt8)}
    {tokens : List (Nat × Nat)} (hk : k < o + len)
    (h : EndsWell buffSize o len tokens (k + (readAt buffSize segs k).length)) : 0 < buffSize := by
  refine Nat.pos_of_ne_zero ?_
  rintro rfl
  have hnil : readAt 0 segs k = [] :=
    length_eq_zero_iff.mp (Nat.le_zero.mp (readAt_length_le 0 segs k))
  rw [EndsWell, hnil, if_pos (by simpa using hk)] at h
  exact h.2 rfl

theorem head_split {h x more w : List UInt8} (hsplit : h ++ more = x ++ w) :
    (∃ y, y ≠ [] ∧ h = x ++ y) ∨ ∃ z, x = h ++ z ∧ more = z ++ w := by
  obtain ⟨z, hz, hmore⟩ | ⟨y, hy, _⟩ := append_eq_append_iff.mp hsplit
  · exact .inr ⟨z, hz, hmore⟩
  · cases y with
    | nil => exact .inr ⟨[], by simpa using hy.symm, by simpa [hy] using hsplit⟩
    | cons b y => exact .inl ⟨b :: y, cons_ne_nil b y, hy⟩

theorem head_extends {h x more w : List UInt8} (hsplit : h ++ more = x ++ w)
    (hle : x.length ≤ h.length) : ∃ y, h = x ++ y := by
  have hx : x <+: h ++ more := ⟨w, hsplit.symm⟩
  obtain ⟨y, hy⟩ := prefix_of_prefix_length_le hx (prefix_append h more) hle
  exact ⟨y, hy.symm⟩

/-! ## Generated parsers -/

/-- A generated parser: its automaton, the marks of the call before, the error code of the callbacks
and the finished states. -/
structure Automaton (R C D : Type) where
  machine : Machine Nat UInt8 R C D
  reset : (R → Nat) → R → Nat
  error : D → Nat
  final : Nat → Bool
  step_target : ∀ cs b e, machine.step cs b = some e →
    e.target ≠ 0 ∧ (e.stop = false → final e.target = false)
  handle_error : ∀ cb texts left d, error d ≠ 0 → error (machine.handle cb texts left d) ≠ 0

namespace Automaton

variable {R C D : Type} [DecidableEq R] (A : Automaton R C D)

/-- A call of the generated function on a buffer that is not empty: the number of
bytes used up. A text of negative length makes `std::string` throw. -/
def run (p : State Nat R D) (data : List UInt8) : Except Fault (Nat × State Nat R D) :=
  match scan A.machine data data 0 { p with regs := A.reset p.regs } with
  | .more s => .ok (data.length, s)
  | .stop n s => .ok (n, s)
  | .reject n s => .ok (n, { s with cs := 0 })
  | .overrun => .error .overrun

def hasError (p : State Nat R D) : Bool := A.error p.data ≠ 0 || p.cs = 0

def isFinished (p : State Nat R D) : Int :=
  if p.cs = 0 then -1 else if A.final p.cs then 1 else 0

variable {A}

theorem run_more {u x y : List UInt8} {p : State Nat R D} {g gf : Parse Nat R D}
    (h : parse A.machine (u ++ (x ++ y)) (x ++ y) u.length g = some gf) (hy : y ≠ [])
    (hc : Clean u.length gf.tokens) (hb : Before u.length g.marks) (hcs : p.cs = g.cs)
    (hd : p.data = g.data) (herr : A.error gf.data = 0) (hp : p.cs ≠ 0 ∧ A.final p.cs = false) :
    ∃ p' g', A.run p x = .ok (x.length, p') ∧ A.hasError p' = false ∧ A.isFinished p' = 0 ∧
      (p'.cs ≠ 0 ∧ A.final p'.cs = false) ∧
      parse A.machine (u ++ (x ++ y)) y (u ++ x).length g' = some gf ∧
      Before (u ++ x).length g'.marks ∧ p'.cs = g'.cs ∧ p'.data = g'.data := by
  obtain ⟨s', g', hscan, hrest, hb', hcs', hd'⟩ :=
    scan_more (v := []) (s := { p with regs := A.reset p.regs }) h hy hc hb
      (agree_of_before hb _) hcs hd
  rw [nil_append, ← length_append] at hrest hb'
  rw [nil_append, length_nil] at hscan
  have hin : s'.cs ≠ 0 ∧ A.final s'.cs = false := by
    refine scan_more_target (P := fun cs => cs ≠ 0 ∧ A.final cs = false) ?_ hscan hp
    intro cs b e he hstop
    obtain ⟨hne, hfin⟩ := A.step_target cs b e he
    exact ⟨hne, hfin hstop⟩
  have herr' : A.error s'.data = 0 := by
    by_contra hne
    rw [hd'] at hne
    exact parse_data (P := fun d => A.error d ≠ 0) A.handle_error hrest hne herr
  refine ⟨s', g', ?_, ?_, ?_, hin, hrest, hb', hcs', hd'⟩
  · rw [run, hscan]
  · simp [hasError, herr', hin.1]
  · rw [isFinished, if_neg hin.1, hin.2, if_neg (by decide)]

theorem run_stop {u x : List UInt8} (z) {p : State Nat R D} {g gf : Parse Nat R D}
    (h : parse A.machine (u ++ x) x u.length g = some gf)
    (hc : Clean u.length gf.tokens) (hb : Before u.length g.marks) (hcs : p.cs = g.cs)
    (hd : p.data = g.data) (herr : A.error gf.data = 0) (hfin : A.final gf.cs = true) :
    ∃ p', A.run p (x ++ z) = .ok (x.length, p') ∧ A.hasError p' = false ∧
      A.isFinished p' = 1 ∧ p'.data = gf.data := by
  obtain ⟨s', hscan, hcs', hd'⟩ :=
    scan_stop (v := []) z (s := { p with regs := A.reset p.regs }) h hc hb
      (agree_of_before hb _) hcs hd
  rw [nil_append, nil_append, length_nil] at hscan
  have hne : s'.cs ≠ 0 := by
    obtain ⟨cs, b, e, he, _, hcse⟩ := parse_target h
    rw [hcs', hcse]
    exact (A.step_target cs b e he).1
  refine ⟨s', ?_, ?_, ?_, hd'⟩
  · rw [run, hscan]
  · simp [hasError, hd', herr, hne]
  · rw [isFinished, if_neg hne, hcs', hfin, if_pos rfl]

variable (A)

def recvHead (execute : State Nat R D → List UInt8 → Except Fault (Nat × State Nat R D))
    (buffSize : Nat) :
    Nat → State Nat R D → List UInt8 → Net (Option (State Nat R D × List UInt8))
  | 0, _, _ => throw .fuel
  | fuel + 1, parser, rest => do
    let (len, x) ← Stream.read (buffSize - rest.length)
    if len ≤ 0 then failed
    else
      match execute parser (rest ++ x) with
      | .error e => throw e
      | .ok (nparse, parser) =>
        let rest := (rest ++ x).drop nparse
        if A.hasError parser then failed
        else if (rest.length : Int) = toInt32 buffSize then failed
        else if A.isFinished parser ≠ 0 then return some (parser, rest)
        else recvHead execute buffSize fuel parser rest

variable {A}

omit [DecidableEq R] in
theorem recvHead_round {execute : State Nat R D → List UInt8 → Except Fault (Nat × State Nat R D)}
    {buffSize fuel n : Nat} {p p' : State Nat R D} {x : List UInt8} {c c' : Conn}
    (hread : (Stream.read buffSize).run c = .ok ((x.length : Int), x) c') (hx : x ≠ [])
    (hexec : execute p x = .ok (n, p')) (herr : A.hasError p' = false)
    (hroom : ((x.drop n).length : Int) ≠ toInt32 buffSize) :
    (A.recvHead execute buffSize (fuel + 1) p []).run c =
      (if A.isFinished p' ≠ 0 then (pure (some (p', x.drop n)) : Net _)
        else A.recvHead execute buffSize fuel p' (x.drop n)).run c' := by
  have hpos : 0 < x.length := length_pos_iff.mpr hx
  rw [recvHead, length_nil, Nat.sub_zero, run_bind_ok hread]
  dsimp only
  rw [if_neg (by omega), nil_append, hexec]
  dsimp only
  rw [herr, if_neg (by decide), if_neg hroom]

/-- The loop is `k` bytes into the header block `head` at position `o`, whose parse ends in `gf`. -/
structure Midway (A : Automaton R C D) (segs : List (List UInt8)) (o : Nat) (head : List UInt8)
    (gf : Parse Nat R D) (k : Nat) (p : State Nat R D) (c : Conn) : Prop where
  delivered : Delivered segs (o + k) c
  clean : Clean k gf.tokens
  rest : ∃ g, parse A.machine head (head.drop k) k g = some gf ∧ Before k g.marks ∧
    p.cs = g.cs ∧ p.data = g.data
  inside : p.cs ≠ 0 ∧ A.final p.cs = false

section
variable {execute : State Nat R D → List UInt8 → Except Fault (Nat × State Nat R D)}
  {head more : List UInt8}

theorem Midway.inner (fuel) (h : Midway A segs o head gf k p c)
    (hexec : ∀ p data, data ≠ [] → execute p data = A.run p data) (herr : A.error gf.data = 0)
    {y : List UInt8} (hy : y ≠ []) (hdrop : head.drop k = readAt buffSize segs (o + k) ++ y)
    (hx : readAt buffSize segs (o + k) ≠ []) (hend : EndsWell buffSize o head.length gf.tokens
      (o + k + (readAt buffSize segs (o + k)).length)) :
    ∃ p' c', (A.recvHead execute buffSize (fuel + 1) p []).run c =
        (A.recvHead execute buffSize fuel p' []).run c' ∧
      Midway A segs o head gf (k + (readAt buffSize segs (o + k)).length) p' c' := by
  obtain ⟨g, hparse, hb, hcs, hd⟩ := h.rest
  obtain ⟨c', hread, hc'⟩ := h.delivered.read buffSize
  generalize readAt buffSize segs (o + k) = x at *
  have hylen := length_pos_iff.mpr hy
  have hlen := congrArg length hdrop
  rw [length_drop, length_append] at hlen
  have hu : (head.take k).length = k := by rw [length_take]; omega
  have hhead : head = head.take k ++ (x ++ y) := by rw [← hdrop, take_append_drop]
  have hclean := h.clean
  rw [← hu] at hclean hb
  rw [EndsWell, if_pos (by omega), Nat.add_assoc, Nat.add_sub_cancel_left] at hend
  have hparse' : parse A.machine (head.take k ++ (x ++ y)) (x ++ y) (head.take k).length g =
      some gf := by
    rw [← hhead, hu, ← hdrop]
    exact hparse
  obtain ⟨p', g', hrun, herr', hfin', hp', hrest, hb', hcs', hd'⟩ :=
    run_more hparse' hy hclean hb hcs hd herr h.inside
  rw [← hhead, length_append, hu] at hrest
  rw [length_append, hu] at hb'
  have hdrop' : head.drop (k + x.length) = y := by
    rw [← drop_drop, hdrop, drop_left]
  refine ⟨p', c', ?_, by rw [← Nat.add_assoc]; exact hc', hend.1,
    ⟨g', by rw [hdrop']; exact hrest, hb', hcs', hd'⟩, hp'⟩
  rw [recvHead_round hread hx ((hexec p x hx).trans hrun) herr' (by simpa using hend.2.symm),
    hfin', if_neg (by decide), drop_length]

theorem Midway.last (fuel) (h : Midway A segs o head gf k p c)
    (hexec : ∀ p data, data ≠ [] → execute p data = A.run p data) (herr : A.error gf.data = 0)
    (hfin : A.final gf.cs = true) (hk : k < head.length) {z : List UInt8}
    (hxz : readAt buffSize segs (o + k) = head.drop k ++ z)
    (hend : EndsWell buffSize o head.length gf.tokens
      (o + k + (readAt buffSize segs (o + k)).length)) :
    ∃ p' c', (A.recvHead execute buffSize (fuel + 1) p []).run c = .ok (some (p', z)) c' ∧
      Delivered segs (o + k + (readAt buffSize segs (o + k)).length) c' ∧ p'.data = gf.data := by
  obtain ⟨g, hparse, hb, hcs, hd⟩ := h.rest
  obtain ⟨c', hread, hc'⟩ := h.delivered.read buffSize
  generalize readAt buffSize segs (o + k) = x at *
  have hlen := congrArg length hxz
  rw [length_append, length_drop] at hlen
  have hx : x ≠ [] := ne_nil_of_length_pos (by omega)
  have hu : (head.take k).length = k := by rw [length_take]; omega
  have hclean := h.clean
  rw [← hu] at hclean hb
  have hbehind : o + k + x.length - (o + head.length) = z.length := by omega
  rw [EndsWell, if_neg (by omega), hbehind] at hend
  have hparse' : parse A.machine (head.take k ++ head.drop k) (head.drop k)
      (head.take k).length g = some gf := by
    rw [take_append_drop, hu]
    exact hparse
  obtain ⟨p', hrun, herr', hfin', hd'⟩ := run_stop z hparse' hclean hb hcs hd herr hfin
  rw [← hxz] at hrun
  have hrest : x.drop (head.drop k).length = z := by rw [hxz, drop_left]
  refine ⟨p', c', ?_, hc', hd'⟩
  rw [recvHead_round hread hx ((hexec p x hx).trans hrun) herr'
    (by rw [hrest]; exact hend), hfin', if_pos (by decide), hrest]
  rfl

/-- The loop goes through the rest of a header block, and leaves what the last read has
brought behind it. -/
theorem recvHead_eq (hexec : ∀ p data, data ≠ [] → execute p data = A.run p data)
    (hs : segs.flatten.drop o = head ++ more) (herr : A.error gf.data = 0)
    (hfin : A.final gf.cs = true) {efuel fuel : Nat} (h : Midway A segs o head gf k p c)
    (hk : k < head.length) (hef : head.length ≤ k + efuel) (hf : head.length < k + fuel)
    (hends : ∀ e ∈ readEnds buffSize segs (o + head.length) efuel (o + k),
      EndsWell buffSize o head.length gf.tokens e) :
    ∃ p' z w c', (A.recvHead execute buffSize fuel p []).run c = .ok (some (p', z)) c' ∧
      Delivered segs (o + head.length + z.length) c' ∧ p'.data = gf.data ∧ more = z ++ w ∧
      z.length ≤ buffSize ∧
      o + head.length + z.length ∈ readEnds buffSize segs (o + head.length) efuel (o + k) := by
  induction efuel generalizing fuel k p c with
  | zero => omega
  | succ efuel ih =>
    obtain ⟨fuel, rfl⟩ : ∃ f, fuel = f + 1 := ⟨fuel - 1, by omega⟩
    have hstream : segs.flatten.drop (o + k) = head.drop k ++ more := by
      rw [← drop_drop, hs, drop_append_of_le_length (Nat.le_of_lt hk)]
    have hin : o + k < segs.flatten.length := by
      have := congrArg length hstream
      simp only [length_drop, length_append] at this
      omega
    rw [readEnds, if_pos (by omega)] at hends ⊢
    have hend := hends _ (mem_cons_self ..)
    have hx := readAt_ne_nil (pos_of_endsWell (show o + k < o + head.length by omega) hend) hin
    have hle := readAt_length_le buffSize segs (o + k)
    have hpos := length_pos_iff.mpr hx
    rcases head_split (hstream.symm.trans (readAt_append buffSize segs (o + k)))
      with ⟨y, hy, hdrop⟩ | ⟨z, hxz, hmore⟩
    · obtain ⟨p₁, c₁, hrun₁, h₁⟩ := h.inner fuel hexec herr hy hdrop hx hend
      have hylen := length_pos_iff.mpr hy
      have hlen := congrArg length hdrop
      rw [length_drop, length_append] at hlen
      rw [Nat.add_assoc] at hends ⊢
      obtain ⟨p', z, w, c', hrun, hc', hd', hmore, hz, hmem⟩ :=
        ih h₁ (by omega) (by omega)
          (show head.length < k + (readAt buffSize segs (o + k)).length + fuel by omega)
          fun e he => hends e (mem_cons_of_mem _ he)
      exact ⟨p', z, w, c', hrun₁.trans hrun, hc', hd', hmore, hz, mem_cons_of_mem _ hmem⟩
    · obtain ⟨p', c', hrun, hc', hd'⟩ := h.last fuel hexec herr hfin hk hxz hend
      have hlen := congrArg length hxz
      rw [length_append, length_drop] at hlen
      have hat : o + k + (readAt buffSize segs (o + k)).length = o + head.length + z.length := by
        omega
      rw [hat] at hc' ⊢
      exact ⟨p', z, _, c', hrun, hc', hd', hmore, by omega, mem_cons_self ..⟩

/-- The loop as it is entered, with a header block in front that is accepted from the
state `start` on. -/
theorem recvHead_whole (hexec : ∀ p data, data ≠ [] → execute p data = A.run p data)
    (hs : segs.flatten.drop o = head ++ more) {start : Nat} {d : D}
    (hparse : parse A.machine head head 0 ⟨start, fun _ => none, d, []⟩ = some gf)
    (herr : A.error gf.data = 0) (hfin : A.final gf.cs = true)
    (hstart : start ≠ 0 ∧ A.final start = false) (hcs : p.cs = start) (hd : p.data = d)
    (hc : Delivered segs o c)
    (hends : ∀ e ∈ readEnds buffSize segs (o + head.length) head.length o,
      EndsWell buffSize o head.length gf.tokens e) :
    0 < buffSize ∧
      ∃ p' z w c', (A.recvHead execute buffSize (c.inbox.flatten.length + 1) p []).run c =
          .ok (some (p', z)) c' ∧
        Delivered segs (o + head.length + z.length) c' ∧ p'.data = gf.data ∧ more = z ++ w ∧
        z.length ≤ buffSize ∧
        o + head.length + z.length ∈ readEnds buffSize segs (o + head.length) head.length o := by
  have hlen : 0 < head.length := by
    refine length_pos_iff.mpr ?_
    rintro rfl
    cases hparse
  have hpos : 0 < buffSize := by
    have hfirst : o + (readAt buffSize segs o).length ∈
        readEnds buffSize segs (o + head.length) head.length o := by
      obtain ⟨n, hn⟩ : ∃ n, head.length = n + 1 := ⟨head.length - 1, by omega⟩
      rw [hn, readEnds, if_pos (by omega)]
      exact mem_cons_self ..
    exact pos_of_endsWell (show o < o + head.length by omega) (hends _ hfirst)
  have hfuel : head.length < 0 + (c.inbox.flatten.length + 1) := by
    rw [hc.flatten, hs, length_append]
    omega
  have hmid : Midway A segs o head gf 0 p c :=
    ⟨hc, fun t _ ht => absurd ht (Nat.not_lt_zero _),
      ⟨_, hparse, ⟨fun _ _ h => (nomatch h), fun _ _ _ h => (nomatch h)⟩, hcs, hd⟩,
      hcs ▸ hstart⟩
  exact ⟨hpos, recvHead_eq hexec hs herr hfin hmid hlen (by omega) hfuel hends⟩

end

end Automaton

end Helens.Http
