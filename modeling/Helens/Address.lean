import Helens.Lib.Cuts
import Mathlib.Data.BitVec

/-! `address.cc`: what `Address::Lookup` asks for, and masks and broadcast addresses. -/

namespace Helens.Address
open Lib.Cuts List

/-! ## `Address::Lookup` -/

/-- The check for an IPv6 address in brackets: `node` and `service`. -/
def bracketed : List Char → List Char × Option (List Char)
  | '[' :: rest =>
    match rest.dropWhile (· != ']') with
    | [] => ([], none)
    | _ :: ':' :: s => (rest.takeWhile (· != ']'), some s)
    | _ => (rest.takeWhile (· != ']'), none)
  | _ => ([], none)

def nodeService (host : List Char) : List Char × Option (List Char) :=
  match host.dropWhile (· != ':') with
  | [] => ([], none)
  | _ :: s => if ':' ∈ s then ([], some (':' :: s)) else (host.takeWhile (· != ':'), some s)

def lookupArgs (host : List Char) : List Char × Option (List Char) :=
  let (node, service) := bracketed host
  let (node, service) := if node.isEmpty then nodeService host else (node, service)
  (if node.isEmpty then host else node, service)

inductive Parts : List Char → List Char → Option (List Char) → Prop
  | bracketService {x s} (hx : x ≠ []) (hend : ']' ∉ x) :
    Parts ('[' :: (x ++ ']' :: ':' :: s)) x (some s)
  | bracket {x} (hx : x ≠ []) (hend : ']' ∉ x) : Parts ('[' :: (x ++ [']'])) x none
  | service {a s} (ha : a ≠ []) (hopen : a.head? ≠ some '[') (hcolon : ':' ∉ a) (hs : ':' ∉ s) :
    Parts (a ++ ':' :: s) a (some s)
  | name {host} (hopen : host.head? ≠ some '[') (hcolon : ':' ∉ host) : Parts host host none
  | bare {host} (hopen : host.head? ≠ some '[') (hcolons : 2 ≤ host.count ':') :
    Parts host host none

theorem bracketed_of_ne (h : host.head? ≠ some '[') : bracketed host = ([], none) := by
  unfold bracketed
  split
  · simp at h
  · rfl

/-- The arguments are the parts of the host, exactly if it is no bare IPv6 address. -/
theorem lookup_by_parts {host node : List Char} {service : Option (List Char)}
    (h : Parts host node service) :
    host.head? = some '[' ∨ host.count ':' < 2 ↔ lookupArgs host = (node, service) := by
  cases h with
  | bracketService hx hend | bracket hx hend =>
    exact iff_of_true (.inl rfl) (by simp [lookupArgs, bracketed, cut_append hend, hx])
  | @service _ s ha hopen hcolon hs =>
    have hhead : bracketed (node ++ ':' :: s) = ([], none) := by
      apply bracketed_of_ne
      cases node with
      | nil => exact absurd rfl ha
      | cons c a => simpa using hopen
    refine iff_of_true (.inr ?_) ?_
    · simp [count_eq_zero.mpr hcolon, count_eq_zero.mpr hs]
    · simp [lookupArgs, hhead, nodeService, cut_append hcolon, hs, ha]
  | name hopen hcolon =>
    refine iff_of_true (.inr ?_) ?_
    · simp [count_eq_zero.mpr hcolon]
    · simp [lookupArgs, bracketed_of_ne hopen, nodeService, cut_of_notMem hcolon]
  | bare hopen hcolons =>
    obtain ⟨a, s, rfl, ha⟩ := eq_append_cons_of_mem (count_pos_iff.mp (Nat.lt_of_lt_of_le
      Nat.zero_lt_two hcolons))
    have hs : ':' ∈ s := by simpa [count_eq_zero.mpr ha] using hcolons
    refine iff_of_false (not_or.mpr ⟨hopen, Nat.not_lt.mpr hcolons⟩) ?_
    simp [lookupArgs, bracketed_of_ne hopen, nodeService, cut_append ha, hs]

theorem lookup_by_parts_localhost :
    lookupArgs "localhost:80".toList = ("localhost".toList, some "80".toList) :=
  (lookup_by_parts (.service (a := "localhost".toList) (by decide) (by decide) (by decide)
    (by decide))).mp (by decide)

/-- The service of a bare IPv6 address is what stands from its first colon on. -/
theorem bare_address_service : ¬ ∀ host node service, Parts host node service →
    lookupArgs host = (node, service) := by
  intro h
  exact absurd (h "::1".toList _ none (.bare (by decide) (by decide))) (by decide)

/-! ## Masks -/

inductive Undefined
  | shift
  | outside
  deriving DecidableEq

/-- `CreateMask<T>` for a `T` of `width` bits. The `1` is an `int`: a shift by 32 or more is
undefined, and so is taking one from `1 << 31`. -/
def createMask (width bits : Nat) : Except Undefined (BitVec width) :=
  if bits ≤ width ∧ width - bits < 31 then .ok (BitVec.ofNat width (2 ^ (width - bits) - 1)) else
    .error .shift

def netMask (width bits : Nat) : BitVec width := BitVec.allOnes width <<< (width - bits)

theorem createMask_eq (hle : bits ≤ width) (h : width - bits < 31) :
    createMask width bits = .ok (~~~ netMask width bits) := by
  rw [createMask, if_pos ⟨hle, h⟩]
  congr 1
  refine BitVec.eq_of_getLsbD_eq fun i hi => ?_
  rw [BitVec.getLsbD_ofNat, Nat.testBit_two_pow_sub_one]
  by_cases hlow : i < width - bits <;> simp [netMask, hi, hlow]

theorem and_not_eq_and_iff (x m : BitVec width) : x &&& ~~~ m = x &&& m ↔ x = 0 := by
  constructor
  · intro h
    refine BitVec.eq_of_getLsbD_eq fun i hi => ?_
    have hbit := congrArg (·.getLsbD i) h
    simp [hi] at hbit ⊢
    cases hx : x.getLsbD i <;> simp_all
  · rintro rfl
    simp

/-! ### IPv4 -/

/-- The address and the port as numbers; `byteswapOnLittleEndian` leads from and to the order of
the network. -/
structure IPv4Address where
  addr : BitVec 32
  port : BitVec 16
  deriving DecidableEq

namespace IPv4Address

variable (a : IPv4Address) (prefixLen : Nat)

def broadcastAddress : Except Undefined (Option IPv4Address) :=
  if prefixLen > 32 then .ok none
  else do return some { a with addr := a.addr ||| (← createMask 32 prefixLen) }

def networdAddress : Except Undefined (Option IPv4Address) :=
  if prefixLen > 32 then .ok none
  else do return some { a with addr := a.addr &&& (← createMask 32 prefixLen) }

def subnetMask : Except Undefined IPv4Address := do
  return { addr := ~~~ (← createMask 32 prefixLen), port := 0 }

/-- For a prefix of 0 or 1 there is no mask. -/
theorem masks_of_v4 (hmax : prefixLen ≤ 32) :
    (subnetMask prefixLen = .ok { addr := netMask 32 prefixLen, port := 0 } ↔ 2 ≤ prefixLen) ∧
      (broadcastAddress a prefixLen =
        .ok (some { a with addr := a.addr ||| ~~~ netMask 32 prefixLen }) ↔ 2 ≤ prefixLen) ∧
      (networdAddress a prefixLen = .ok (some { a with addr := a.addr &&& netMask 32 prefixLen }) ↔
        2 ≤ prefixLen ∧ a.addr = 0) := by
  have hnot : ¬ prefixLen > 32 := Nat.not_lt.mpr hmax
  rw [subnetMask, broadcastAddress, networdAddress, if_neg hnot, if_neg hnot]
  by_cases hmin : 2 ≤ prefixLen
  · rw [createMask_eq hmax (by omega), ← and_not_eq_and_iff a.addr (netMask 32 prefixLen)]
    cases a
    simp [hmin, bind, Except.bind, pure, Except.pure]
  · rw [createMask, if_neg (by omega)]
    simp [hmin, bind, Except.bind]

theorem masks_of_v4_loopback : subnetMask 8 = .ok ⟨0xFF000000, 0⟩ ∧
      broadcastAddress ⟨0x7F000001, 80⟩ 8 = .ok (some ⟨0x7FFFFFFF, 80⟩) := by
  obtain ⟨hsubnet, hbroadcast, -⟩ := masks_of_v4 ⟨0x7F000001, 80⟩ 8 (by decide)
  exact ⟨(hsubnet.mpr (by decide)).trans (by decide),
    (hbroadcast.mpr (by decide)).trans (by decide)⟩

/-- The network of 192.168.1.1/24 comes out as 0.0.0.1, and a mask of no bits is undefined. -/
theorem network_keeps_host : networdAddress ⟨0xC0A80101, 80⟩ 24 = .ok (some ⟨0x00000001, 80⟩) ∧
      ∀ a, broadcastAddress a 0 = .error .shift :=
  ⟨by decide, fun _ => rfl⟩

end IPv4Address

/-! ### IPv6 -/

structure IPv6Address where
  addr : Fin 16 → BitVec 8
  port : BitVec 16

namespace IPv6Address

def byteMask (prefixLen : Nat) (i : Fin 16) : BitVec 8 := netMask 8 (min 8 (prefixLen - 8 * i))

variable (a : IPv6Address) (prefixLen : Nat)

/-- The byte at `prefixLen / 8` is written first, with the mask of the bits that are left. -/
def partialMask : Except Undefined (BitVec 8) :=
  if prefixLen / 8 < 16 then createMask 8 (prefixLen % 8) else .error .outside

def broadcastAddress : Except Undefined IPv6Address := do
  let mask ← partialMask prefixLen
  return { a with addr := fun i =>
    if i = prefixLen / 8 then a.addr i ||| mask else if prefixLen / 8 < i then 0xff else a.addr i }

def networdAddress : Except Undefined IPv6Address := do
  let mask ← partialMask prefixLen
  return { a with addr := fun i =>
    if i = prefixLen / 8 then a.addr i &&& mask else if prefixLen / 8 < i then 0 else a.addr i }

def subnetMask : Except Undefined IPv6Address := do
  let mask ← partialMask prefixLen
  return {
    addr := fun i => if i < prefixLen / 8 then 0xff else if i = prefixLen / 8 then ~~~ mask else 0
    port := 0 }

theorem byteMask_eq (i) : byteMask prefixLen i =
      if i < prefixLen / 8 then 0xff
      else if i = prefixLen / 8 then netMask 8 (prefixLen % 8) else 0 := by
  rw [byteMask]
  split
  · rw [show min 8 (prefixLen - 8 * i) = 8 by omega]
    decide
  · split
    · rw [show min 8 (prefixLen - 8 * i) = prefixLen % 8 by omega]
    · rw [show min 8 (prefixLen - 8 * i) = 0 by omega]
      decide

theorem masks_of_v6 (hmax : prefixLen ≤ 128) :
    (subnetMask prefixLen = .ok { addr := byteMask prefixLen, port := 0 } ↔ prefixLen < 128) ∧
      (broadcastAddress a prefixLen =
        .ok { a with addr := fun i => a.addr i ||| ~~~ byteMask prefixLen i } ↔ prefixLen < 128) ∧
      (networdAddress a prefixLen =
          .ok { a with addr := fun i => a.addr i &&& byteMask prefixLen i } ↔
        ∃ h : prefixLen < 128, a.addr ⟨prefixLen / 8, by omega⟩ = 0) := by
  rw [subnetMask, broadcastAddress, networdAddress]
  by_cases h : prefixLen < 128
  · have hmask : partialMask prefixLen = .ok (~~~ netMask 8 (prefixLen % 8)) := by
      rw [partialMask, if_pos (by omega), createMask_eq (by omega) (by omega)]
    rw [hmask]
    simp only [bind, Except.bind, pure, Except.pure, Except.ok.injEq, mk.injEq, and_true,
      funext_iff, byteMask_eq, BitVec.not_not, h, iff_true, exists_true_left]
    rw [← and_not_eq_and_iff _ (netMask 8 (prefixLen % 8))]
    refine ⟨fun _ => trivial, fun i => ?_, fun hnet => ?_, fun hzero i => ?_⟩
    · rcases lt_trichotomy (i : Nat) (prefixLen / 8) with hi | hi | hi
      · simp [hi, hi.ne, hi.not_gt]
      · simp [hi]
      · simp only [hi, hi.ne', hi.not_gt, if_true, if_false]
        exact BitVec.or_allOnes.symm
    · simpa using hnet ⟨prefixLen / 8, by omega⟩
    · rcases lt_trichotomy (i : Nat) (prefixLen / 8) with hi | hi | hi
      · simp only [hi, hi.ne, hi.not_gt, if_true, if_false]
        exact BitVec.and_allOnes.symm
      · simpa [← hi] using hzero
      · simp [hi, hi.ne', hi.not_gt]
  · rw [partialMask, if_neg (by omega)]
    simp [h, bind, Except.bind]

theorem masks_of_v6_loopback : subnetMask 12 = .ok ⟨byteMask 12, 0⟩ ∧
      networdAddress ⟨fun i => if i = 15 then 1 else 0, 80⟩ 12 =
        .ok ⟨fun i => (if i = 15 then 1 else 0) &&& byteMask 12 i, 80⟩ := by
  obtain ⟨hsubnet, -, hnetwork⟩ :=
    masks_of_v6 ⟨fun i => if i = 15 then 1 else 0, 80⟩ 12 (by decide)
  exact ⟨hsubnet.mpr (by decide), hnetwork.mpr ⟨by decide, rfl⟩⟩

/-- A prefix of all the bits is a write behind the last byte. -/
theorem full_length_outside : broadcastAddress ⟨fun _ => 0, 80⟩ 128 = .error .outside ∧
    networdAddress ⟨fun _ => 0, 80⟩ 128 = .error .outside ∧ subnetMask 128 = .error .outside :=
  ⟨rfl, rfl, rfl⟩

end IPv6Address

end Helens.Address
