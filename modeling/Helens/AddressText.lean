import Helens.Address

/-! The text that `IPv6Address::insert` of `address.cc` prints, with the first run of zeros left
out, and how it is read. -/

namespace Helens.Address.IPv6Address
open List

abbrev Hextet := BitVec 16

def hex (x : Hextet) : List Char := Nat.toDigits 16 x.toNat

/-- The loop of `insert` and what follows it; `prev` is `addr[i - 1]`. -/
def insertGroups (prev : Option Hextet) (usedZeros : Bool) : List Hextet → List Char
  | [] => if !usedZeros && prev == some 0 then [':', ':'] else []
  | x :: xs =>
    if x == 0 && !usedZeros then insertGroups (some x) usedZeros xs
    else
      let first := prev == some 0 && !usedZeros
      (if first then [':'] else []) ++ (if prev.isSome then [':'] else []) ++ hex x ++
        insertGroups (some x) (usedZeros || first) xs

/-! ## Reading the text -/

def hexValue (c : Char) : Option Nat :=
  if c.isDigit then some (c.toNat - 48)
  else if 'a' ≤ c ∧ c ≤ 'f' then some (c.toNat - 87)
  else if 'A' ≤ c ∧ c ≤ 'F' then some (c.toNat - 55)
  else none

def number (w : List Char) : Option Nat :=
  w.foldlM (fun n c => (hexValue c).map (16 * n + ·)) 0

def readGroup (w : List Char) : Option Hextet :=
  if w = [] ∨ 4 < w.length then none else (number w).map (BitVec.ofNat 16)

def readGroups (t : List Char) : Option (List Hextet) :=
  if t = [] then some [] else (t.splitOn ':').mapM readGroup

/-- The text before the first `::`, and what follows it. -/
def cutPair : List Char → List Char × Option (List Char)
  | [] => ([], none)
  | c :: t =>
    if c = ':' ∧ t.head? = some ':' then ([], some t.tail)
    else (c :: (cutPair t).1, (cutPair t).2)

/-- A `::` stands for one or more groups of zeros. -/
def expand (t : List Char) : Option (List Hextet) :=
  match cutPair t with
  | (t, none) => (readGroups t).filter (·.length = 8)
  | (l, some r) => do
    let l ← readGroups l
    let r ← readGroups r
    if l.length + r.length < 8 then some (l ++ replicate (8 - l.length - r.length) 0 ++ r) else none

def AtMostOne (t : List Char) : Prop :=
  ∀ r, (cutPair t).2 = some r → (cutPair (':' :: r)).2 = none

def separated (xs : List Hextet) : List Char := xs.flatMap fun x => ':' :: hex x

def joined : List Hextet → List Char
  | [] => []
  | x :: xs => hex x ++ separated xs

theorem hexValue_digitChar :
    ∀ d < 16, hexValue (Nat.digitChar d) = some d ∧ Nat.digitChar d ≠ ':' := by decide

theorem number_toDigits (n) : number (Nat.toDigits 16 n) = some n ∧ ':' ∉ Nat.toDigits 16 n := by
  induction n using Nat.strongRecOn with
  | ind n ih =>
    by_cases h : n < 16
    · obtain ⟨hv, hne⟩ := hexValue_digitChar n h
      rw [Nat.toDigits_of_lt_base h]
      simp [number, hv, hne.symm]
    · obtain ⟨hv, hne⟩ := hexValue_digitChar (n % 16) (Nat.mod_lt _ (by decide))
      obtain ⟨hnum, hcolon⟩ := ih (n / 16) (by omega)
      rw [Nat.toDigits_of_base_le (by decide) (by omega)]
      rw [number] at hnum
      simp [number, hnum, hv, hcolon, hne.symm, Nat.div_add_mod]

theorem readGroup_hex (x) : readGroup (hex x) = some x := by
  have hlen := (Nat.length_toDigits_le_iff (b := 16) (k := 4) (by decide) (by decide)).mpr x.isLt
  simpa [readGroup, hex, (number_toDigits x.toNat).1] using hlen

theorem separated_cons (x xs) :
    separated (x :: xs) = ':' :: (hex x ++ separated xs) := rfl

theorem colon_notMem_hex (x) : ':' ∉ hex x := (number_toDigits x.toNat).2

theorem head_hex (x t) : (hex x ++ t).head? ≠ some ':' := by
  have hcolon := colon_notMem_hex x
  cases h : hex x with
  | nil => exact absurd h Nat.toDigits_ne_nil
  | cons c w =>
    rw [h] at hcolon
    simp at hcolon ⊢
    exact fun hc => hcolon.1 hc.symm

theorem cutPair_append (h : ':' ∉ w) (t) :
    cutPair (w ++ t) = (w ++ (cutPair t).1, (cutPair t).2) := by
  induction w with
  | nil => rfl
  | cons c w ih =>
    simp only [mem_cons, not_or] at h
    simp [cutPair, Ne.symm h.1, ih h.2]

theorem cutPair_separated (xs t) :
    cutPair (separated xs ++ t) = (separated xs ++ (cutPair t).1, (cutPair t).2) := by
  induction xs with
  | nil => rfl
  | cons x xs ih =>
    have hcut := cutPair_append (colon_notMem_hex x) (separated xs ++ t)
    rw [separated_cons, cons_append, append_assoc, cutPair, if_neg fun h => head_hex x _ h.2, hcut,
      ih]
    simp

theorem cutPair_joined (xs t) :
    cutPair (joined xs ++ t) = (joined xs ++ (cutPair t).1, (cutPair t).2) := by
  cases xs with
  | nil => rfl
  | cons x xs =>
    rw [joined, append_assoc, cutPair_append (colon_notMem_hex x), cutPair_separated, append_assoc]

theorem splitOn_joined (x xs) : (joined (x :: xs)).splitOn ':' = (x :: xs).map hex := by
  induction xs generalizing x with
  | nil => rw [joined, separated, flatMap_nil, append_nil, map_singleton,
      splitOn_eq_singleton (colon_notMem_hex x)]
  | cons y xs ih =>
    rw [joined, separated_cons, splitOn_append_cons_self_of_not_mem (colon_notMem_hex x)]
    exact congrArg _ (ih y)

theorem readGroups_joined (xs) : readGroups (joined xs) = some xs := by
  cases xs with
  | nil => rfl
  | cons x xs =>
    have hne : joined (x :: xs) ≠ [] := by simp [joined, hex]
    have hall : ∀ ys : List Hextet, (ys.map hex).mapM readGroup = some ys := by
      intro ys
      induction ys with
      | nil => rfl
      | cons y ys ih => simp [readGroup_hex, ih]
    rw [readGroups, if_neg hne, splitOn_joined, hall]

theorem insertGroups_used (prev xs) : insertGroups (some prev) true xs = separated xs := by
  induction xs generalizing prev with
  | nil => rfl
  | cons x xs ih => simp [insertGroups, ih, separated]

theorem insertGroups_zeros (xs) : ∃ k post, xs = replicate k 0#16 ++ post ∧
    insertGroups (some 0#16) false xs = ':' :: ':' :: joined post := by
  induction xs with
  | nil => exact ⟨0, [], rfl, rfl⟩
  | cons x xs ih =>
    by_cases hx : x = 0#16
    · obtain ⟨k, post, hxs, htext⟩ := ih
      exact ⟨k + 1, post, by rw [hx, hxs]; rfl, by simpa [insertGroups, hx] using htext⟩
    · exact ⟨0, x :: xs, rfl, by simp [insertGroups, hx, insertGroups_used, joined]⟩

/-- The groups up to the first zero, with a colon in front unless they are the first. -/
def start (prev : Option Hextet) (xs : List Hextet) : List Char :=
  if prev.isSome then separated xs else joined xs

theorem start_cons (prev : Option Hextet) (x xs) : start prev (x :: xs) =
    (if prev.isSome then [':'] else []) ++ hex x ++ start (some x) xs := by
  cases prev <;> rfl

theorem insertGroups_start {prev} (hprev : prev ≠ some 0#16) (xs) :
    insertGroups prev false xs = start prev xs ∨ ∃ pre k post,
      xs = pre ++ replicate (k + 1) 0#16 ++ post ∧
      insertGroups prev false xs = start prev pre ++ ':' :: ':' :: joined post := by
  induction xs generalizing prev with
  | nil => exact .inl (by simp [insertGroups, hprev, start, separated, joined])
  | cons x xs ih =>
    by_cases hx : x = 0#16
    · obtain ⟨k, post, hxs, htext⟩ := insertGroups_zeros xs
      refine .inr ⟨[], k, post, by rw [hx, hxs]; rfl, ?_⟩
      simpa [insertGroups, hx, start, separated, joined] using htext
    · have hstep : insertGroups prev false (x :: xs) =
          (if prev.isSome then [':'] else []) ++ hex x ++ insertGroups (some x) false xs := by
        simp [insertGroups, hx, beq_eq_false_iff_ne.mpr hprev]
      rcases ih fun h => hx (Option.some.inj h) with hall | ⟨pre, k, post, hxs, htext⟩
      · exact .inl (by rw [hstep, hall, start_cons])
      · exact .inr ⟨x :: pre, k, post, by rw [hxs]; rfl,
          by rw [hstep, htext, start_cons, append_assoc, append_assoc, append_assoc]⟩

theorem expand_insertGroups {xs : List Hextet} (h : xs.length = 8) :
    expand (insertGroups none false xs) = some xs ∧ AtMostOne (insertGroups none false xs) := by
  rcases insertGroups_start (Option.some_ne_none 0#16).symm xs with
    hall | ⟨pre, k, post, hxs, htext⟩
  · have hcut := cutPair_joined xs []
    rw [append_nil] at hcut
    rw [hall, start]
    refine ⟨?_, fun r hr => ?_⟩
    · simp [expand, hcut, cutPair, readGroups_joined, h]
    · simp [hcut, cutPair] at hr
  · have hcut : cutPair (insertGroups none false xs) = (joined pre, some (joined post)) := by
      rw [htext, start]
      simp [cutPair_joined, cutPair]
    refine ⟨?_, fun r hr => ?_⟩
    · have hlen := congrArg length hxs
      simp only [length_append, length_replicate] at hlen
      have hfill : 8 - pre.length - post.length = k + 1 := by omega
      have hlt : pre.length + post.length < 8 := by omega
      rw [expand, hcut]
      simpa [readGroups_joined, hlt, hfill] using hxs.symm
    · obtain rfl : joined post = r := by simpa [hcut] using hr
      cases post with
      | nil => rfl
      | cons x xs =>
        have hsep := cutPair_separated (x :: xs) []
        rw [append_nil] at hsep
        exact congrArg Prod.snd hsep

def groups (a : IPv6Address) : List Hextet :=
  ofFn fun i : Fin 8 => a.addr ⟨2 * i, by omega⟩ ++ a.addr ⟨2 * i + 1, by omega⟩

def insert (a : IPv6Address) : List Char :=
  '[' :: (insertGroups none false a.groups ++ ']' :: ':' :: Nat.toDigits 10 a.port.toNat)

theorem insert_expands (a : IPv6Address) :
    ∃ t, a.insert = '[' :: (t ++ ']' :: ':' :: Nat.toDigits 10 a.port.toNat) ∧
      expand t = some a.groups ∧ AtMostOne t :=
  ⟨_, rfl, expand_insertGroups (length_ofFn ..)⟩

end Helens.Address.IPv6Address
