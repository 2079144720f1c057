import Helens.NameServerNodes

/-! The ids of registered nodes. `handleRegister` looks only at the upper half of the id, and
`inet_addr` gives `INADDR_NONE` for a text that is no address. -/

namespace Helens.NS

open Lib.Runs

/-! ## Addresses and ports -/

/-- `inet_addr`, with what it makes of the texts that are addresses. The others give
`INADDR_NONE`. -/
def inetAddr (parse : String → Option UInt32) (ip : String) : UInt32 :=
  (parse ip).getD 0xffffffff

def ValidIp (parse : String → Option UInt32) (ip : String) : Prop := ∃ addr ∈ parse ip, addr ≠ 0

def RegisterInfo.endpoint (info : RegisterInfo) : Option (String × UInt32) := do
  let node ← info.node
  let ip ← node.ip
  let port ← node.port
  return (ip, port)

def idOf (parse : String → Option UInt32) (e : String × UInt32) : UInt64 :=
  NSNode.getID (inetAddr parse) e.1 e.2.toUInt16

/-- Address and port, as far as an id holds them, are not both the same. -/
def ToldApart (parse : String → Option UInt32) (e₁ e₂ : String × UInt32) : Prop :=
  inetAddr parse e₁.1 ≠ inetAddr parse e₂.1 ∨ e₁.2.toNat % 2 ^ 16 ≠ e₂.2.toNat % 2 ^ 16

/-! ## Ids -/

theorem NSNode.toNat_getID (inetAddr : String → UInt32) (ip) (port : UInt16) :
    (NSNode.getID inetAddr ip port).toNat = (inetAddr ip).toNat * 2 ^ 32 + port.toNat := by
  have haddr := (inetAddr ip).toNat_lt
  have hport := port.toNat_lt
  rw [NSNode.getID, UInt64.toNat_or, UInt64.toNat_shiftLeft, UInt32.toNat_toUInt64,
    UInt16.toNat_toUInt64]
  have hshift : (inetAddr ip).toNat <<< 32 % 2 ^ 64 = (inetAddr ip).toNat <<< 32 := by
    rw [Nat.shiftLeft_eq]
    omega
  change (inetAddr ip).toNat <<< 32 % 2 ^ 64 ||| port.toNat = _
  rw [hshift, ← Nat.shiftLeft_add_eq_or_of_lt (by omega), Nat.shiftLeft_eq]

theorem NSNode.getID_eq_iff (inetAddr : String → UInt32) (ip₁ ip₂ p₁ p₂) :
    NSNode.getID inetAddr ip₁ p₁ = NSNode.getID inetAddr ip₂ p₂ ↔
      inetAddr ip₁ = inetAddr ip₂ ∧ p₁ = p₂ := by
  have hp₁ := p₁.toNat_lt
  have hp₂ := p₂.toNat_lt
  rw [← UInt64.toNat_inj, ← UInt32.toNat_inj, ← UInt16.toNat_inj, NSNode.toNat_getID,
    NSNode.toNat_getID]
  omega

theorem NSNode.getID_shiftRight_eq_zero_iff (inetAddr : String → UInt32) (ip port) : NSNode.getID
    inetAddr ip port >>> 32 = 0 ↔ inetAddr ip = 0 := by
  have hport := port.toNat_lt
  rw [← UInt64.toNat_inj, ← UInt32.toNat_inj, UInt64.toNat_shiftRight]
  change (NSNode.getID inetAddr ip port).toNat >>> 32 = 0 ↔ (inetAddr ip).toNat = 0
  rw [Nat.shiftRight_eq_div_pow, NSNode.toNat_getID]
  omega

theorem idOf_ne_iff (parse : String → Option UInt32) (e₁ e₂) :
    idOf parse e₁ ≠ idOf parse e₂ ↔ ToldApart parse e₁ e₂ := by
  rw [ToldApart, ← not_and_or, not_iff_not, idOf, idOf, NSNode.getID_eq_iff, ← UInt16.toNat_inj,
    UInt32.toNat_toUInt16, UInt32.toNat_toUInt16]

/-! ## Accepted requests -/

section
variable {inetAddr : String → UInt32}

theorem addInfo_endpoint (h : addInfo inetAddr old new info = .ok client) :
    ∃ e, info.endpoint = some e ∧ inetAddr e.1 ≠ 0 := by
  unfold addInfo at h
  simp only [bind_eq_ok, require_eq_ok, reject_eq_ok] at h
  obtain ⟨node, hnode, -, -, -, -, ip, hip, port, hport, weight, -, -, hvalid, -⟩ := h
  refine ⟨(ip, port), ?_, fun hzero => ?_⟩
  · simp [RegisterInfo.endpoint, hnode, hip, hport]
  · exact hvalid ((NSNode.getID_shiftRight_eq_zero_iff inetAddr ip port.toUInt16).mpr hzero)

theorem addInfos_endpoint :
    ∀ {new r : Option NSClientInfo}, addInfos inetAddr old infos new = .ok r →
      ∀ info ∈ infos, ∃ e, info.endpoint = some e ∧ inetAddr e.1 ≠ 0 := by
  induction infos with
  | nil => exact fun _ info hinfo => absurd hinfo List.not_mem_nil
  | cons first infos ih =>
    intro new r h info hinfo
    obtain ⟨client, hclient, hrest⟩ := bind_eq_ok.mp h
    rcases List.mem_cons.mp hinfo with rfl | hinfo
    · exact addInfo_endpoint hclient
    · exact ih hrest info hinfo

/-- Every entry of an accepted request has a text that `inet_addr` does not take for zero. -/
theorem handleRegister_endpoint (h : (handleRegister inetAddr s rs (some infos)).1 = true) :
    ∀ info ∈ infos, ∃ e, info.endpoint = some e ∧ inetAddr e.1 ≠ 0 := by
  unfold handleRegister at h
  dsimp only at h
  split at h
  · cases h
  · next hadd => exact addInfos_endpoint hadd

end

def Accepts (parse : String → Option UInt32) (e : String × UInt32) : Prop :=
  ∃ s rs infos, (handleRegister (inetAddr parse) s rs (some infos)).1 = true ∧
    ∃ info ∈ infos, info.endpoint = some e

theorem Accepts.validIp_iff {parse : String → Option UInt32}
    (h : Accepts parse e) : ValidIp parse e.1 ↔ (parse e.1).isSome := by
  obtain ⟨s, rs, infos, haccepted, info, hinfo, he⟩ := h
  obtain ⟨e', he', hnonzero⟩ := handleRegister_endpoint haccepted info hinfo
  obtain rfl := Option.some.inj (he'.symm.trans he)
  constructor
  · rintro ⟨addr, haddr, -⟩
    exact Option.isSome_iff_exists.mpr ⟨addr, haddr⟩
  · intro hsome
    obtain ⟨addr, haddr⟩ := Option.isSome_iff_exists.mp hsome
    refine ⟨addr, haddr, ?_⟩
    rw [inetAddr, haddr] at hnonzero
    exact hnonzero

/-- The accepted nodes have valid texts and different ids exactly if all texts are addresses and no
two nodes have one address and one port. -/
theorem accepted_nodes_iff (parse : String → Option UInt32) (es : Set (String × UInt32))
    (haccepts : ∀ e ∈ es, Accepts parse e) :
    ((∀ e ∈ es, ValidIp parse e.1) ∧
      ∀ e₁ ∈ es, ∀ e₂ ∈ es, e₁ ≠ e₂ → idOf parse e₁ ≠ idOf parse e₂) ↔
    ((∀ e ∈ es, (parse e.1).isSome) ∧ ∀ e₁ ∈ es, ∀ e₂ ∈ es, e₁ ≠ e₂ → ToldApart parse e₁ e₂) := by
  apply and_congr
  · exact forall₂_congr fun e he => (haccepts e he).validIp_iff
  · simp only [idOf_ne_iff]

def parse1 (ip : String) : Option UInt32 := if ip = "10.0.0.1" then some 0x0100000a else none

def request (ip : String) (port : UInt32) : List RegisterInfo :=
  [{ domain := some "a", cmds := [1], node := some ⟨some ip, some port, some 5⟩ }]

theorem accepted_nodes_iff_two :
    (∀ e ∈ ({("10.0.0.1", 80), ("10.0.0.1", 81)} : Set (String × UInt32)), Accepts parse1 e) ∧
    idOf parse1 ("10.0.0.1", 80) ≠ idOf parse1 ("10.0.0.1", 81) := by
  have haccepts : ∀ e ∈ ({("10.0.0.1", 80), ("10.0.0.1", 81)} : Set (String × UInt32)),
      Accepts parse1 e := by
    rintro e (rfl | rfl)
    · exact ⟨init, 0, request "10.0.0.1" 80, by decide +kernel, _, List.mem_singleton_self _, rfl⟩
    · exact ⟨init, 0, request "10.0.0.1" 81, by decide +kernel, _, List.mem_singleton_self _, rfl⟩
  have hconditions : (∀ e ∈ ({("10.0.0.1", 80), ("10.0.0.1", 81)} : Set (String × UInt32)),
      (parse1 e.1).isSome) ∧ ∀ e₁ ∈ ({("10.0.0.1", 80), ("10.0.0.1", 81)} : Set _),
      ∀ e₂ ∈ ({("10.0.0.1", 80), ("10.0.0.1", 81)} : Set _), e₁ ≠ e₂ → ToldApart parse1 e₁ e₂ := by
    constructor
    · rintro e (rfl | rfl) <;> decide +kernel
    · rintro e₁ (rfl | rfl) e₂ (rfl | rfl) hne
      · exact absurd rfl hne
      · exact .inr (by decide +kernel)
      · exact .inr (by decide +kernel)
      · exact absurd rfl hne
  refine ⟨haccepts, ?_⟩
  exact ((accepted_nodes_iff parse1 _ haccepts).mpr hconditions).2 _ (.inl rfl) _ (.inr rfl)
    (by decide +kernel)

/-- Two texts that are no addresses are accepted as one node, and so is an address with two ports
that differ by 2¹⁶. -/
theorem register_accepts_invalid :
    (handleRegister (inetAddr parse1) init 0 (some (request "nonsense" 80))).1 = true ∧
    (handleRegister (inetAddr parse1) init 1 (some (request "rubbish" 80))).1 = true ∧
    parse1 "nonsense" = none ∧ idOf parse1 ("nonsense", 80) = idOf parse1 ("rubbish", 80) ∧
    (handleRegister (inetAddr parse1) init 2 (some (request "10.0.0.1" 80))).1 = true ∧
    (handleRegister (inetAddr parse1) init 3 (some (request "10.0.0.1" 65616))).1 = true ∧
    idOf parse1 ("10.0.0.1", 80) = idOf parse1 ("10.0.0.1", 65616) := by
  decide +kernel

end Helens.NS
