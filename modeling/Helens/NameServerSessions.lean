import Helens.NameServerDirectory

/-! The sessions of the name server. A request that is accepted is turned into a
registration that says what the request says, and every step replaces the registration
of one session, or none. So the sessions have what their latest requests said. -/

namespace Helens.NS

open Lib.Runs List

/-! ## What a request says -/

section
variable (inetAddr : String → UInt32)

def RegisterInfo.nsNode (info : RegisterInfo) : Option NSNode := do
  let node ← info.node
  let ip ← node.ip
  let port ← node.port
  let weight ← node.weight
  return NSNode.new inetAddr ip port.toUInt16 weight

def Lists (infos : List RegisterInfo) (domain : String) (cmd : UInt32) (id : UInt64) : Prop :=
  ∃ info ∈ infos, info.domain = some domain ∧ cmd ∈ info.cmds ∧
    ∃ node ∈ info.nsNode inetAddr, node.id = id
  deriving Decidable

def FirstWeight (infos : List RegisterInfo) (weight : UInt32) : Prop :=
  ∃ info ∈ infos.head?, ∃ node ∈ info.nsNode inetAddr, node.weight = weight

end

theorem Cmds.has_foldl_insertCmd (m domain) (cmds : List UInt32) (domain' cmd) :
    Cmds.Has (cmds.foldl (fun m cmd => Cmds.insertCmd m domain cmd) m) domain' cmd ↔
      Cmds.Has m domain' cmd ∨ domain' = domain ∧ cmd ∈ cmds := by
  induction cmds generalizing m with
  | nil => simp
  | cons n cmds ih =>
    rw [foldl_cons, ih, Cmds.has_insertCmd]
    grind

section
variable {inetAddr : String → UInt32}

theorem require_eq_ok {α : Type} {attr : Attr} {o : Option α} {a : α} :
    require attr o = .ok a ↔ o = some a := by
  cases o with
  | none => simp [require]
  | some b => simp [require]

theorem reject_eq_ok {bad : Prop} [Decidable bad] {r : Rejection} {u : Unit} :
    reject bad r = .ok u ↔ ¬ bad := by
  unfold reject
  split <;> simp_all

/-- An entry that is accepted has all its fields, agrees with the session's node, and
adds its commands. -/
theorem addInfo_ok {old new : Option NSClientInfo} {info : RegisterInfo} {client : NSClientInfo}
    (h : addInfo inetAddr old new info = .ok client) :
    ∃ domain node, info.domain = some domain ∧ info.nsNode inetAddr = some node ∧
      (∀ o ∈ old, o.node.id = node.id) ∧ client.node.id = node.id ∧
      client.node = (new.map NSClientInfo.node).getD node ∧
      ∀ d c, Cmds.Has client.domain2cmds d c ↔
        Cmds.Has (domain2cmds new) d c ∨ d = domain ∧ c ∈ info.cmds := by
  unfold addInfo at h
  simp only [bind_eq_ok, require_eq_ok, reject_eq_ok] at h
  obtain ⟨node, hnode, domain, hdomain, -, -, ip, hip, port, hport, weight, hweight, -, -, -, hold,
    -, hnew, hclient⟩ := h
  obtain rfl := Except.ok.inj hclient
  refine ⟨domain, NSNode.new inetAddr ip port.toUInt16 weight, hdomain, ?_, ?_, ?_, ?_, ?_⟩
  · simp [RegisterInfo.nsNode, hnode, hip, hport, hweight]
  · intro o ho
    by_contra hne
    exact hold ⟨o, ho, hne⟩
  · cases new with
    | none => rfl
    | some n =>
      by_contra hne
      exact hnew ⟨n, rfl, hne⟩
  · cases new <;> rfl
  · intro d c
    rw [Cmds.has_foldl_insertCmd]
    cases new <;> rfl

theorem addInfos_some {old : Option NSClientInfo} {infos : List RegisterInfo} {n : NSClientInfo}
    {r : Option NSClientInfo} (h : addInfos inetAddr old infos (some n) = .ok r) :
    ∃ client, r = some client ∧ client.node = n.node ∧
      (∀ info ∈ infos, ∃ node ∈ info.nsNode inetAddr, node.id = n.node.id) ∧
      ∀ d c, Cmds.Has client.domain2cmds d c ↔ Cmds.Has n.domain2cmds d c ∨
        ∃ info ∈ infos, info.domain = some d ∧ c ∈ info.cmds := by
  induction infos generalizing n with
  | nil =>
    obtain rfl := Except.ok.inj h
    exact ⟨n, rfl, rfl, nofun, by simp⟩
  | cons info infos ih =>
    obtain ⟨client, hclient, hrest⟩ := bind_eq_ok.mp h
    obtain ⟨domain, node, hdomain, hnode, _, hid, heq, hhas⟩ := addInfo_ok hclient
    obtain ⟨result, hr, hsame, hids, hhas'⟩ := ih hrest
    have hnode' : client.node = n.node := heq
    refine ⟨result, hr, hsame.trans hnode', ?_, ?_⟩
    · intro i hi
      rcases mem_cons.mp hi with rfl | hi
      · exact ⟨node, hnode, by rw [← hid, hnode']⟩
      · rw [← hnode']
        exact hids i hi
    · intro d c
      rw [hhas', hhas, exists_mem_cons_iff, hdomain]
      simp only [domain2cmds, Option.some.injEq]
      grind

/-- What a request is turned into says what the request says. -/
structure Represents (inetAddr : String → UInt32) (infos : List RegisterInfo)
    (client : Option NSClientInfo) : Prop where
  lists : ∀ domain cmd id, Registers client domain cmd id ↔ Lists inetAddr infos domain cmd id
  first : ∀ c ∈ client, ∃ info ∈ infos.head?, info.nsNode inetAddr = some c.node

theorem addInfos_ok {old : Option NSClientInfo} {infos : List RegisterInfo}
    {r : Option NSClientInfo} (h : addInfos inetAddr old infos none = .ok r) :
    Represents inetAddr infos r ∧ ∀ o ∈ old, ∀ n ∈ r, o.node.id = n.node.id := by
  cases infos with
  | nil =>
    obtain rfl := Except.ok.inj h
    refine ⟨⟨?_, nofun⟩, nofun⟩
    intro d c id
    exact ⟨nofun, nofun⟩
  | cons info infos =>
    obtain ⟨first, hfirst, hrest⟩ := bind_eq_ok.mp h
    obtain ⟨domain, node, hdomain, hnode, hold, _, heq, hhas⟩ := addInfo_ok hfirst
    obtain ⟨client, rfl, hsame, hids, hhas'⟩ := addInfos_some hrest
    have hclient : client.node = node := hsame.trans heq
    refine ⟨⟨?_, ?_⟩, ?_⟩
    · intro d c id
      have hlist : Cmds.Has client.domain2cmds d c ↔
          ∃ i ∈ info :: infos, i.domain = some d ∧ c ∈ i.cmds := by
        rw [hhas', hhas, exists_mem_cons_iff, hdomain]
        have hno := Cmds.not_has_empty d c
        simp only [domain2cmds, Option.some.injEq]
        grind
      have hall : ∀ i ∈ info :: infos, ∃ m ∈ i.nsNode inetAddr, m.id = client.node.id := by
        intro i hi
        rcases mem_cons.mp hi with rfl | hi
        · exact ⟨node, hnode, by rw [hclient]⟩
        · rw [hsame]
          exact hids i hi
      constructor
      · rintro ⟨_, ⟨⟩, hh, rfl⟩
        obtain ⟨i, hi, hd, hc⟩ := hlist.mp hh
        exact ⟨i, hi, hd, hc, hall i hi⟩
      · rintro ⟨i, hi, hd, hc, m, hm, rfl⟩
        refine ⟨client, rfl, hlist.mpr ⟨i, hi, hd, hc⟩, ?_⟩
        obtain ⟨m', hm', hid'⟩ := hall i hi
        rw [← hid', Option.mem_unique hm' hm]
    · rintro _ ⟨⟩
      exact ⟨info, rfl, by rw [hnode, hclient]⟩
    · rintro o ho _ ⟨⟩
      rw [hold o ho, hclient]

/-! ## What a step does -/

structure Change (s s' : State) (rs : Nat) (new : Option NSClientInfo) : Prop where
  domains : s'.domains = update (s.sessions.lookup rs) new s.domains
  own : s'.sessions.lookup rs = new
  others : ∀ rs', rs' ≠ rs → s'.sessions.lookup rs' = s.sessions.lookup rs'
  ids : ∀ o ∈ s.sessions.lookup rs, ∀ n ∈ new, o.node.id = n.node.id

theorem set_change (s : State) (rs new)
    (hids : ∀ o ∈ s.sessions.lookup rs, ∀ n ∈ new, o.node.id = n.node.id) :
    Change s (set s rs new) rs (if rs ∈ s.connected then new else none) := by
  have hids' : ∀ o ∈ s.sessions.lookup rs, ∀ n ∈ (if rs ∈ s.connected then new else none),
      o.node.id = n.node.id := by
    split
    · exact hids
    · exact nofun
  unfold set
  dsimp only
  generalize (if rs ∈ s.connected then new else none) = client at hids' ⊢
  cases client with
  | none => exact ⟨rfl, AList.lookup_erase _ _, fun _ hne => AList.lookup_erase_ne hne, hids'⟩
  | some c => exact ⟨rfl, AList.lookup_insert _, fun _ hne => AList.lookup_insert_ne hne, hids'⟩

structure Known (inetAddr : String → UInt32) (s : State) : Prop where
  latest : ∀ rs infos, s.latest.lookup rs = some infos →
    rs ∈ s.connected ∧ Represents inetAddr infos (s.sessions.lookup rs)
  absent : ∀ rs, s.latest.lookup rs = none → s.sessions.lookup rs = none

inductive Moves (inetAddr : String → UInt32) (s : State) : Action → State → Prop
  | stay {a : Action} {s' : State} : s'.domains = s.domains →
    (∀ rs, s'.sessions.lookup rs = s.sessions.lookup rs) → s'.latest = s.latest →
    (∀ rs ∈ s.connected, rs ∈ s'.connected) → Moves inetAddr s a s'
  | register {rs : Nat} {infos : List RegisterInfo} {new : Option NSClientInfo} {s' : State} :
    rs ∈ s.connected → (handleRegister inetAddr s rs (some infos)).1 = true →
    Represents inetAddr infos new → Change s s' rs new → s'.latest = s.latest.insert rs infos →
    s'.connected = s.connected → Moves inetAddr s (.register rs (some infos)) s'
  | disconnect {rs : Nat} {s' : State} : Change s s' rs none → s'.latest = s.latest.erase rs →
    s'.connected = s.connected.erase rs → Moves inetAddr s (.disconnect rs) s'

theorem step_moves {s : State} (hk : Known inetAddr s) (a) :
    Moves inetAddr s a (step inetAddr a s) := by
  cases a with
  | connect rs =>
    exact .stay rfl (fun _ => rfl) rfl fun _ h => mem_insert_of_mem h
  | register rs rr =>
    unfold step
    dsimp only
    cases rr with
    | none => exact .stay rfl (fun _ => rfl) rfl fun _ h => h
    | some infos =>
      cases hadd : addInfos inetAddr (s.sessions.lookup rs) infos none with
      | error r =>
        have hhandle : handleRegister inetAddr s rs (some infos) = (false, s) := by
          rw [handleRegister, hadd]
        rw [hhandle]
        exact .stay rfl (fun _ => rfl) rfl fun _ h => h
      | ok new =>
        have hhandle : handleRegister inetAddr s rs (some infos) = (true, set s rs new) := by
          rw [handleRegister, hadd]
        obtain ⟨hrep, hids⟩ := addInfos_ok hadd
        have hchange := set_change s rs new hids
        rw [hhandle]
        dsimp only [record]
        by_cases hc : rs ∈ s.connected
        · rw [if_pos hc] at hchange
          rw [if_pos ⟨rfl, hc⟩]
          refine .register hc (by rw [hhandle]) hrep ?_ rfl rfl
          exact ⟨hchange.domains, hchange.own, hchange.others, hchange.ids⟩
        · -- the stream is closed, and nothing of it is left
          rw [if_neg hc] at hchange
          rw [if_neg fun h => hc h.2]
          have hnone : s.sessions.lookup rs = none := by
            refine hk.absent rs ?_
            cases hl : s.latest.lookup rs with
            | none => rfl
            | some i => exact absurd (hk.latest rs i hl).1 hc
          refine .stay ?_ ?_ rfl fun _ h => h
          · rw [hchange.domains, hnone]
            rfl
          · intro rs'
            by_cases heq : rs' = rs
            · rw [heq, hchange.own, hnone]
            · exact hchange.others rs' heq
  | disconnect rs =>
    unfold step
    dsimp only
    split
    · rename_i hc
      have hchange : Change s (onDisconnect s rs) rs none := by
        have h := set_change s rs none nofun
        rw [ite_self] at h
        exact h
      exact .disconnect ⟨hchange.domains, hchange.own, hchange.others, hchange.ids⟩ rfl rfl
    · exact .stay rfl (fun _ => rfl) rfl fun _ h => h

theorem Known.step {s : State} (hk : Known inetAddr s) (a) :
    Known inetAddr (step inetAddr a s) := by
  have hmove := step_moves hk a
  generalize NS.step inetAddr a s = s' at hmove
  cases hmove with
  | stay _ hsessions hlatest hconnected =>
    refine ⟨?_, ?_⟩
    · intro rs infos hl
      rw [hlatest] at hl
      obtain ⟨hc, hrep⟩ := hk.latest rs infos hl
      exact ⟨hconnected rs hc, by rw [hsessions]; exact hrep⟩
    · intro rs hl
      rw [hlatest] at hl
      rw [hsessions]
      exact hk.absent rs hl
  | @register rs infos new _ hc _ hrep hchange hlatest hconnected =>
    refine ⟨?_, ?_⟩
    · intro rs' infos' hl
      rw [hlatest] at hl
      rw [hconnected]
      by_cases heq : rs' = rs
      · subst heq
        rw [AList.lookup_insert] at hl
        obtain rfl := Option.some.inj hl
        exact ⟨hc, by rw [hchange.own]; exact hrep⟩
      · rw [AList.lookup_insert_ne heq] at hl
        rw [hchange.others rs' heq]
        exact hk.latest rs' infos' hl
    · intro rs' hl
      rw [hlatest] at hl
      have heq : rs' ≠ rs := by
        rintro rfl
        rw [AList.lookup_insert] at hl
        cases hl
      rw [AList.lookup_insert_ne heq] at hl
      rw [hchange.others rs' heq]
      exact hk.absent rs' hl
  | @disconnect rs _ hchange hlatest hconnected =>
    refine ⟨?_, ?_⟩
    · intro rs' infos' hl
      rw [hlatest] at hl
      have heq : rs' ≠ rs := by
        rintro rfl
        rw [AList.lookup_erase] at hl
        cases hl
      rw [AList.lookup_erase_ne heq] at hl
      rw [hchange.others rs' heq, hconnected]
      obtain ⟨hc, hrep⟩ := hk.latest rs' infos' hl
      exact ⟨(mem_erase_of_ne heq).mpr hc, hrep⟩
    · intro rs' hl
      rw [hlatest] at hl
      by_cases heq : rs' = rs
      · rw [heq]
        exact hchange.own
      · rw [AList.lookup_erase_ne heq] at hl
        rw [hchange.others rs' heq]
        exact hk.absent rs' hl

theorem known_init : Known inetAddr init := by
  refine ⟨?_, ?_⟩
  · intro rs infos hl
    rw [init, AList.lookup_empty] at hl
    cases hl
  · intro rs _
    exact AList.lookup_empty rs

end

end Helens.NS
