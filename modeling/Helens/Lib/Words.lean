import Mathlib.Data.BitVec
import Mathlib.Data.Nat.Bitwise
import Mathlib.Tactic.Ring

/-! Numbers as bytes: the image of a `w`-byte word in memory, its byte swap, and
the base-128 form with seven bits to a byte. Everything is stated on `Nat`, so
that one lemma serves every width. -/

namespace Lib.Words

/-! ## Words of a fixed width -/

def leBytes : Nat → Nat → List UInt8
  | 0, _ => []
  | w + 1, n => UInt8.ofNat n :: leBytes w (n / 256)

def ofLeBytes : List UInt8 → Nat
  | [] => 0
  | b :: bs => b.toNat + 256 * ofLeBytes bs

def bswap (w n : Nat) : Nat := ofLeBytes (leBytes w n).reverse

variable (w n : Nat)

@[simp] theorem length_leBytes : (leBytes w n).length = w := by
  induction w generalizing n with
  | zero => rfl
  | succ w ih => simp [leBytes, ih]

theorem ofLeBytes_leBytes : ofLeBytes (leBytes w n) = n % 256 ^ w := by
  induction w generalizing n with
  | zero => simp [leBytes, ofLeBytes, Nat.mod_one]
  | succ w ih =>
    have hpow : 256 ^ (w + 1) = 256 * 256 ^ w := by rw [Nat.pow_succ, Nat.mul_comm]
    simp only [leBytes, ofLeBytes, ih, UInt8.toNat_ofNat']
    rw [hpow, Nat.mod_mul]

theorem leBytes_ofLeBytes (bs : List UInt8) : leBytes bs.length (ofLeBytes bs) = bs := by
  induction bs with
  | nil => rfl
  | cons b bs ih =>
    have hb := b.toNat_lt
    have hdiv : (b.toNat + 256 * ofLeBytes bs) / 256 = ofLeBytes bs := by omega
    have hbyte : UInt8.ofNat (b.toNat + 256 * ofLeBytes bs) = b := by
      apply UInt8.toNat_inj.mp
      rw [UInt8.toNat_ofNat']
      omega
    simp only [List.length_cons, leBytes, ofLeBytes, hdiv, hbyte, ih]

theorem ofLeBytes_lt (bs : List UInt8) : ofLeBytes bs < 256 ^ bs.length := by
  have h := ofLeBytes_leBytes bs.length (ofLeBytes bs)
  rw [leBytes_ofLeBytes] at h
  rw [h]
  exact Nat.mod_lt _ (Nat.pow_pos (by decide))

theorem leBytes_bswap : leBytes w (bswap w n) = (leBytes w n).reverse := by
  have h := leBytes_ofLeBytes (leBytes w n).reverse
  rwa [List.length_reverse, length_leBytes] at h

theorem bswap_ofLeBytes_reverse : bswap w (ofLeBytes (leBytes w n).reverse) = n % 256 ^ w := by
  change bswap w (bswap w n) = _
  rw [bswap, leBytes_bswap, List.reverse_reverse, ofLeBytes_leBytes]

/-! ## Seven bits to a byte -/

/-- The base-128 form in at most `slots` bytes: seven bits to a byte, lowest
first, the top bit set on every byte but the last. -/
def septets : Nat → Nat → Option (List UInt8)
  | 0, _ => none
  | slots + 1, n =>
    if n ≥ 0x80 then
      (septets slots (n >>> 7)).map (UInt8.ofNat ((n &&& 0x7F) ||| 0x80) :: ·)
    else some [UInt8.ofNat n]

theorem and_septet (n) : n &&& 0x7F = n % 128 := Nat.and_two_pow_sub_one_eq_mod n 7

theorem or_top (n) (h : n < 128) : n ||| 0x80 = n + 128 := by
  have hsum : 128 + n = 128 ||| n := Nat.two_pow_add_eq_or_of_lt (i := 7) (b := n) h 1
  rw [Nat.or_comm, ← hsum, Nat.add_comm]

theorem or_shiftLeft (r p i) (h : r < 2 ^ i) : r ||| (p <<< i) = r + p * 2 ^ i := by
  rw [Nat.shiftLeft_eq, Nat.or_comm, Nat.mul_comm, ← Nat.two_pow_add_eq_or_of_lt h, Nat.add_comm]

theorem septets_isSome (k n) (h : n < 128 ^ (k + 1)) : ∃ bs, septets (k + 1) n = some bs := by
  induction k generalizing n with
  | zero => exact ⟨[UInt8.ofNat n], by simp [septets, show ¬ n ≥ 128 by omega]⟩
  | succ k ih =>
    by_cases hn : n ≥ 0x80
    · have hlt : n >>> 7 < 128 ^ (k + 1) := by
        rw [Nat.shiftRight_eq_div_pow, Nat.div_lt_iff_lt_mul (by decide)]
        rw [Nat.pow_succ] at h
        exact h
      obtain ⟨bs, hbs⟩ := ih (n >>> 7) hlt
      exact ⟨UInt8.ofNat ((n &&& 0x7F) ||| 0x80) :: bs, by rw [septets, if_pos hn, hbs]; rfl⟩
    · exact ⟨[UInt8.ofNat n], by rw [septets, if_neg hn]⟩

theorem septets_length {slots n : Nat} (h : septets slots n = some bs) :
    1 ≤ bs.length ∧ bs.length ≤ slots := by
  induction slots generalizing n bs with
  | zero => simp [septets] at h
  | succ slots ih =>
    rw [septets] at h
    split at h
    · obtain ⟨cs, hcs, rfl⟩ := Option.map_eq_some_iff.mp h
      have := ih hcs
      simp only [List.length_cons]
      omega
    · cases h
      simp

/-! ## Signed numbers as unsigned ones -/

/-- Non-negative values to even numbers, negative ones to odd numbers. -/
def zigzag {w : Nat} (v : BitVec w) : BitVec w :=
  if v.msb then -v * 2#w - 1#w else v * 2#w

def unzigzag {w : Nat} (v : BitVec w) : BitVec w := (v >>> 1) ^^^ -(v &&& 1#w)

theorem toNat_double_add {w : Nat} (v : BitVec (w + 1)) (c) (hc : c < 2)
    (h : v.toNat < 2 ^ w) : (v * 2#(w + 1) + BitVec.ofNat (w + 1) c).toNat = 2 * v.toNat + c := by
  have hpow : 2 ^ (w + 1) = 2 * 2 ^ w := by rw [Nat.pow_succ, Nat.mul_comm]
  have h0 := Nat.two_pow_pos w
  rw [BitVec.toNat_add, BitVec.toNat_mul, BitVec.toNat_ofNat, BitVec.toNat_ofNat,
    Nat.mod_eq_of_lt (show c < 2 ^ (w + 1) by omega)]
  cases w with
  | zero =>
    have hv : v.toNat = 0 := by simpa using h
    rw [hv]
    simp only [Nat.zero_mul, Nat.zero_mod, Nat.mul_zero, Nat.zero_add, Nat.pow_one]
    omega
  | succ w =>
    have h1 : 2 ^ (w + 1) = 2 * 2 ^ w := by rw [Nat.pow_succ, Nat.mul_comm]
    have h2 := Nat.two_pow_pos w
    rw [Nat.mod_eq_of_lt (show 2 < 2 ^ (w + 1 + 1) by omega),
      Nat.mod_eq_of_lt (show v.toNat * 2 < 2 ^ (w + 1 + 1) by omega),
      Nat.mod_eq_of_lt (by omega), Nat.mul_comm]

theorem unzigzag_eq {w : Nat} (v : BitVec w) :
    unzigzag v = if v.toNat % 2 = 1 then ~~~(v >>> 1) else v >>> 1 := by
  have hand : v &&& 1#w = BitVec.ofNat w (v.toNat % 2) := by
    apply BitVec.eq_of_toNat_eq
    cases w with
    | zero => simp [BitVec.of_length_zero]
    | succ w =>
      have h0 := Nat.two_pow_pos w
      have hpow : 2 ^ (w + 1) = 2 * 2 ^ w := by rw [Nat.pow_succ, Nat.mul_comm]
      rw [BitVec.toNat_and, BitVec.toNat_ofNat, BitVec.toNat_ofNat,
        Nat.mod_eq_of_lt (show 1 < 2 ^ (w + 1) by omega), Nat.and_one_is_mod,
        Nat.mod_eq_of_lt (show v.toNat % 2 < 2 ^ (w + 1) by omega)]
  rw [unzigzag, hand]
  split
  · next h => rw [h, BitVec.neg_one_eq_allOnes, BitVec.xor_allOnes]
  · next h => rw [show v.toNat % 2 = 0 by omega]; simp

theorem unzigzag_zigzag {w : Nat} (v : BitVec (w + 1)) : unzigzag (zigzag v) = v := by
  have hpow : 2 ^ (w + 1) = 2 * 2 ^ w := by rw [Nat.pow_succ, Nat.mul_comm]
  have hlt := v.isLt
  rw [unzigzag_eq]
  cases hm : v.msb with
  | false =>
    have hv : v.toNat < 2 ^ w := by simpa [BitVec.msb_eq_decide] using hm
    have hz : (zigzag v).toNat = 2 * v.toNat + 0 := by
      rw [← toNat_double_add v 0 (by decide) hv]
      simp [zigzag, hm]
    rw [if_neg (by omega)]
    apply BitVec.eq_of_toNat_eq
    rw [BitVec.toNat_ushiftRight, hz, Nat.shiftRight_eq_div_pow]
    omega
  | true =>
    have hv : 2 ^ w ≤ v.toNat := by simpa [BitVec.msb_eq_decide] using hm
    have hn : (~~~v).toNat < 2 ^ w := by rw [BitVec.toNat_not]; omega
    have hz : (zigzag v).toNat = 2 * (~~~v).toNat + 1 := by
      rw [← toNat_double_add (~~~v) 1 (by decide) hn]
      have he : zigzag v = ~~~v * 2#(w + 1) + 1#(w + 1) := by
        rw [zigzag, if_pos hm, BitVec.neg_eq_not_add, show 1#(w + 1) = 1 from rfl,
          show 2#(w + 1) = 2 from rfl]
        ring
      rw [he]
    rw [if_pos (by omega)]
    apply BitVec.eq_of_toNat_eq
    rw [BitVec.toNat_not, BitVec.toNat_ushiftRight, hz, Nat.shiftRight_eq_div_pow, BitVec.toNat_not]
    omega

/-! ## Bytes -/

theorem forall_byte {P : UInt8 → Prop} (h : ∀ n < 256, P (UInt8.ofNat n)) (b) : P b := by
  have hb := h b.toNat b.toNat_lt
  rwa [UInt8.ofNat_toNat] at hb

end Lib.Words
