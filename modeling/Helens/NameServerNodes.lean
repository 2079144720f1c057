import Helens.NameServerSessions

/-! The directory and the sessions. The directory has what the sessions have: exactly
that, with the weights, if no two sessions register one node; all of it, as long as no
session gives up a node that another one still lists. -/

namespace Helens.NS

open Lib.Runs

section
variable {inetAddr : String → UInt32}

/-! ## Sessions with nodes of their own -/

def DistinctIds (s : State) : Prop :=
  ∀ rs rs' c c', s.sessions.lookup rs = some c → s.sessions.lookup rs' = some c' → rs ≠ rs' →
    c.node.id ≠ c'.node.id

def Matches (s : State) : Prop :=
  ∀ domain cmd id weight,
    (∃ node, NSDomainSet.find s.domains domain cmd id = some node ∧ node.weight = weight) ↔
      ∃ rs c, s.sessions.lookup rs = some c ∧ Cmds.Has c.domain2cmds domain cmd ∧
        c.node.id = id ∧ c.node.weight = weight

theorem Change.find_new (h : Change s s' rs (some n)) (hm : Matches s)
    (hhas : Cmds.Has n.domain2cmds domain cmd) :
    ∃ node, NSDomainSet.find s'.domains domain cmd n.node.id = some node ∧
      node.weight = n.node.weight := by
  rw [h.domains]
  rcases find_update_new hhas s.domains with hnode | ⟨o, ho, hho, hweight, hsame⟩
  · exact ⟨n.node, hnode, rfl⟩
  · rw [hsame, ← hweight]
    exact (hm domain cmd n.node.id o.node.weight).mpr ⟨rs, o, ho, hho, h.ids o ho n rfl, rfl⟩

theorem Change.matches
    (h : Change s s' rs new) (hm : Matches s) (hd : DistinctIds s) (hd' : DistinctIds s') :
    Matches s' := by
  -- the sessions that list a node which this one does not
  have hother : ∀ {rs' c}, rs' ≠ rs → s'.sessions.lookup rs' = some c →
      ∀ domain cmd, ¬ Registers (s.sessions.lookup rs) domain cmd c.node.id ∧
        ¬ Registers new domain cmd c.node.id := by
    intro rs' c hne hc domain cmd
    refine ⟨?_, ?_⟩
    · rintro ⟨o, ho, _, hid⟩
      rw [h.others rs' hne] at hc
      exact hd rs rs' o c ho hc hne.symm hid
    · rintro ⟨n, hn, _, hid⟩
      exact hd' rs rs' n c (h.own.trans hn) hc hne.symm hid
  intro domain cmd id weight
  constructor
  · rintro ⟨node, hfind, hweight⟩
    by_cases hnew : Registers new domain cmd id
    · obtain ⟨n, rfl, hhas, rfl⟩ := hnew
      obtain ⟨node', hfind', hweight'⟩ := h.find_new hm hhas
      rw [hfind] at hfind'
      obtain rfl := Option.some.inj hfind'
      exact ⟨rs, n, h.own, hhas, rfl, hweight'.symm.trans hweight⟩
    · rw [h.domains] at hfind
      by_cases hold : Registers (s.sessions.lookup rs) domain cmd id
      · rw [find_update_del h.ids hold hnew] at hfind
        cases hfind
      · rw [find_update_keep hold hnew] at hfind
        obtain ⟨rs', c, hc, hhas, hid, hw⟩ :=
          (hm domain cmd id weight).mp ⟨node, hfind, hweight⟩
        have hne : rs' ≠ rs := by
          rintro rfl
          exact hold ⟨c, hc, hhas, hid⟩
        exact ⟨rs', c, (h.others rs' hne).trans hc, hhas, hid, hw⟩
  · rintro ⟨rs', c, hc, hhas, rfl, rfl⟩
    by_cases heq : rs' = rs
    · subst heq
      rw [h.own] at hc
      subst hc
      exact h.find_new hm hhas
    · obtain ⟨hold, hnew⟩ := hother heq hc domain cmd
      rw [h.domains, find_update_keep hold hnew]
      rw [h.others rs' heq] at hc
      exact (hm _ _ _ _).mpr ⟨rs', c, hc, hhas, rfl, rfl⟩

end

section
variable (inetAddr : String → UInt32)

/-- A session registers a node that no other connected session has registered. -/
def OwnNode (s : State) : Action → Prop
  | .register rs rr =>
    ∀ infos ∈ rr, (handleRegister inetAddr s rs rr).1 = true → rs ∈ s.connected →
      ∀ e ∈ s.latest.entries, e.1 ≠ rs → ∀ i ∈ e.2, ∀ n ∈ i.nsNode inetAddr,
        ∀ j ∈ infos, ∀ m ∈ j.nsNode inetAddr, n.id ≠ m.id
  | _ => True

instance (s : State) : (a : Action) → Decidable (OwnNode inetAddr s a)
  | .register rs rr =>
    inferInstanceAs (Decidable (∀ infos ∈ rr, _))
  | .connect _ | .disconnect _ => inferInstanceAs (Decidable True)

/-- The directory holds exactly what the latest registrations of connected sessions list, with the
weight of the first entry. -/
def Directory (s : State) : Prop :=
  ∀ domain cmd id weight,
    (∃ node, NSDomainSet.find s.domains domain cmd id = some node ∧ node.weight = weight) ↔
      ∃ rs ∈ s.connected, ∃ infos, s.latest.lookup rs = some infos ∧
        Lists inetAddr infos domain cmd id ∧ FirstWeight inetAddr infos weight

end

section
variable {inetAddr : String → UInt32}

theorem Matches.directory (h : Matches s) (hk : Known inetAddr s) : Directory inetAddr s := by
  intro domain cmd id weight
  rw [h domain cmd id weight]
  constructor
  · rintro ⟨rs, c, hc, hhas, hid, hweight⟩
    cases hl : s.latest.lookup rs with
    | none =>
      rw [hk.absent rs hl] at hc
      cases hc
    | some infos =>
      obtain ⟨hconnected, hrep⟩ := hk.latest rs infos hl
      obtain ⟨info, hinfo, hnode⟩ := hrep.first c hc
      exact ⟨rs, hconnected, infos, hl, (hrep.lists domain cmd id).mp ⟨c, hc, hhas, hid⟩,
        info, hinfo, c.node, hnode, hweight⟩
  · rintro ⟨rs, _, infos, hl, hlists, info, hinfo, node, hnode, hweight⟩
    obtain ⟨_, hrep⟩ := hk.latest rs infos hl
    obtain ⟨c, hc, hhas, hid⟩ := (hrep.lists domain cmd id).mpr hlists
    obtain ⟨info', hinfo', hnode'⟩ := hrep.first c hc
    rw [Option.mem_unique hinfo' hinfo] at hnode'
    have hsame : c.node = node := Option.mem_unique hnode' hnode
    exact ⟨rs, c, hc, hhas, hid, by rw [hsame]; exact hweight⟩

theorem Known.names (hk : Known inetAddr s) (hc : s.sessions.lookup rs = some c) :
    ∃ e ∈ s.latest.entries, e.1 = rs ∧ ∃ i ∈ e.2, i.nsNode inetAddr = some c.node := by
  cases hl : s.latest.lookup rs with
  | none =>
    rw [hk.absent rs hl] at hc
    cases hc
  | some infos =>
    obtain ⟨info, hinfo, hnode⟩ := (hk.latest rs infos hl).2.first c hc
    exact ⟨⟨rs, infos⟩, AList.mem_lookup_iff.mp hl, rfl, info, List.mem_of_mem_head? hinfo, hnode⟩

theorem DistinctIds.change (hd : DistinctIds s) (h : Change s s' rs new)
    (hnew : ∀ n ∈ new, ∀ rs' c, rs' ≠ rs → s.sessions.lookup rs' = some c →
      c.node.id ≠ n.node.id) : DistinctIds s' := by
  have hown : ∀ {rs' c c'}, rs' ≠ rs → s'.sessions.lookup rs = some c →
      s'.sessions.lookup rs' = some c' → c'.node.id ≠ c.node.id := by
    intro rs' c c' hne hc hc'
    rw [h.others rs' hne] at hc'
    exact hnew c (h.own.symm.trans hc) rs' c' hne hc'
  intro rs₁ rs₂ c₁ c₂ h₁ h₂ hne
  by_cases heq₁ : rs₁ = rs
  · subst heq₁
    exact (hown hne.symm h₁ h₂).symm
  · by_cases heq₂ : rs₂ = rs
    · subst heq₂
      exact hown hne h₂ h₁
    · rw [h.others rs₁ heq₁] at h₁
      rw [h.others rs₂ heq₂] at h₂
      exact hd rs₁ rs₂ c₁ c₂ h₁ h₂ hne

structure Exact (inetAddr : String → UInt32) (s : State) : Prop where
  known : Known inetAddr s
  distinct : DistinctIds s
  found : Matches s

theorem Exact.step (h : Exact inetAddr s) (hC : OwnNode inetAddr s a) :
    Exact inetAddr (step inetAddr a s) := by
  have hknown := h.known.step a
  have hmove := step_moves h.known a
  generalize NS.step inetAddr a s = s' at hknown hmove
  cases hmove with
  | stay hdomains hsessions _ _ =>
    refine ⟨hknown, ?_, ?_⟩
    · unfold DistinctIds
      simp only [hsessions]
      exact h.distinct
    · unfold Matches
      simp only [hsessions, hdomains]
      exact h.found
  | @register rs infos new _ hc haccepted hrep hchange _ _ =>
    have hd' : DistinctIds s' := by
      refine h.distinct.change hchange ?_
      intro n hn rs' c hne hc'
      obtain ⟨e, he, heq, i, hi, hnode⟩ := h.known.names hc'
      obtain ⟨info, hinfo, hnode'⟩ := hrep.first n hn
      exact hC infos rfl haccepted hc e he (heq ▸ hne) i hi c.node hnode info
        (List.mem_of_mem_head? hinfo) n.node hnode'
    exact ⟨hknown, hd', hchange.matches h.found h.distinct hd'⟩
  | disconnect hchange _ _ =>
    have hd' : DistinctIds s' := h.distinct.change hchange nofun
    exact ⟨hknown, hd', hchange.matches h.found h.distinct hd'⟩

theorem exact_init : Exact inetAddr init := by
  have hsessions : ∀ rs, init.sessions.lookup rs = none := AList.lookup_empty
  refine ⟨known_init, ?_, ?_⟩
  · intro rs rs' c c' hc
    rw [hsessions] at hc
    cases hc
  · intro domain cmd id weight
    constructor
    · rintro ⟨node, hfind, _⟩
      cases hfind
    · rintro ⟨rs, c, hc, _⟩
      rw [hsessions] at hc
      cases hc

end

/-- **If no two sessions register one node,** the directory holds exactly what the latest
registrations list, along every run. A refused request changes nothing. -/
theorem directory_holds_latest (inetAddr : String → UInt32) (as : List Action)
    (h : Along (exec inetAddr) (OwnNode inetAddr) as init) :
    Post (Directory inetAddr) (fun _ => False) (run (exec inetAddr) as init) ∧
      ∀ s rs rr, (handleRegister inetAddr s rs rr).1 = false →
        (handleRegister inetAddr s rs rr).2.domains = s.domains := by
  constructor
  · have hrun : Post (Exact inetAddr) (fun _ => False) (run (exec inetAddr) as init) :=
      post_run (fun s a hs hC => hs.step hC) as init h exact_init
    exact hrun.imp (fun s hs => hs.found.directory hs.known)
  · intro s rs rr hrejected
    unfold handleRegister at hrejected ⊢
    split
    · rfl
    · split
      · rfl
      · rename_i infos new hadd
        dsimp only at hrejected
        rw [hadd] at hrejected
        cases hrejected

def inetAddr4 (ip : String) : UInt32 := if ip = "10.0.0.1" then 0x0100000a else 0x0200000a

def entry (domain ip : String) (cmds : List UInt32) (weight : UInt32) : RegisterInfo :=
  { domain := some domain, cmds := cmds, node := some ⟨some ip, some 8020, some weight⟩ }

def twoNodes : List Action :=
  [.connect 0, .connect 1, .register 0 (some [entry "a" "10.0.0.1" [1, 2] 5]),
    .register 1 (some [entry "a" "10.0.0.2" [1] 7]),
    .register 0 (some [entry "a" "10.0.0.1" [1] 6, entry "b" "10.0.0.1" [3] 9]), .disconnect 1]

theorem directory_holds_latest_two : Along (exec inetAddr4) (OwnNode inetAddr4) twoNodes init ∧
      Post (Directory inetAddr4) (fun _ => False) (run (exec inetAddr4) twoNodes init) :=
  ⟨by decide +kernel, (directory_holds_latest inetAddr4 twoNodes (by decide +kernel)).1⟩

/-! ## Sessions that share nodes -/

section
variable (inetAddr : String → UInt32)

-- looks at the members of the list, not at every number
instance (priority := 2000) forallMem (l : List UInt32) (p : UInt32 → Prop) [DecidablePred p] :
    Decidable (∀ cmd ∈ l, p cmd) := l.decidableBAll p

/-- Every node that a latest registration lists is in the directory. -/
def AllListed (s : State) : Prop :=
  ∀ e ∈ s.latest.entries, ∀ i ∈ e.2, ∀ domain ∈ i.domain, ∀ cmd ∈ i.cmds,
    ∀ n ∈ i.nsNode inetAddr, NSDomainSet.find s.domains domain cmd n.id ≠ none
  deriving Decidable

/-- What the session's latest registration lists and the new one does not is listed by
no other session. -/
def GivesUpOwn (s : State) (rs : Nat) (infos : List RegisterInfo) : Prop :=
  ∀ old ∈ s.latest.lookup rs, ∀ i ∈ old, ∀ domain ∈ i.domain, ∀ cmd ∈ i.cmds,
    ∀ n ∈ i.nsNode inetAddr, Lists inetAddr infos domain cmd n.id ∨
      ∀ e ∈ s.latest.entries, e.1 ≠ rs → ¬ Lists inetAddr e.2 domain cmd n.id
  deriving Decidable

def Unshared (s : State) : Action → Prop
  | .connect _ => True
  | .register rs rr =>
    ∀ infos ∈ rr, (handleRegister inetAddr s rs rr).1 = true → GivesUpOwn inetAddr s rs infos
  | .disconnect rs => GivesUpOwn inetAddr s rs []

instance (s : State) : (a : Action) → Decidable (Unshared inetAddr s a)
  | .connect _ => inferInstanceAs (Decidable True)
  | .register rs rr =>
    inferInstanceAs (Decidable (∀ infos ∈ rr, _))
  | .disconnect rs => inferInstanceAs (Decidable (GivesUpOwn inetAddr s rs []))

end

section
variable {inetAddr : String → UInt32}

def Present (s : State) : Prop :=
  ∀ rs domain cmd id, Registers (s.sessions.lookup rs) domain cmd id →
    NSDomainSet.find s.domains domain cmd id ≠ none

theorem Present.change (hp : Present s) (h : Change s s' rs new)
    (hown : ∀ domain cmd id, Registers (s.sessions.lookup rs) domain cmd id →
      ¬ Registers new domain cmd id →
        ∀ rs', rs' ≠ rs → ¬ Registers (s.sessions.lookup rs') domain cmd id) : Present s' := by
  intro rs' domain cmd id hreg
  rw [h.domains]
  by_cases hnew : Registers new domain cmd id
  · obtain ⟨n, rfl, hhas, rfl⟩ := hnew
    rcases find_update_new hhas s.domains with hnode | ⟨o, ho, hho, _, hsame⟩
    · rw [hnode]
      nofun
    · rw [hsame]
      exact hp rs domain cmd _ ⟨o, ho, hho, h.ids o ho n rfl⟩
  · have hne : rs' ≠ rs := by
      rintro rfl
      rw [h.own] at hreg
      exact hnew hreg
    rw [h.others rs' hne] at hreg
    have hold : ¬ Registers (s.sessions.lookup rs) domain cmd id :=
      fun hold => hown domain cmd id hold hnew rs' hne hreg
    rw [find_update_keep hold hnew]
    exact hp rs' domain cmd id hreg

theorem Known.registers_iff (hk : Known inetAddr s) (rs domain cmd id) : Registers
    (s.sessions.lookup rs) domain cmd id ↔
      ∃ infos, s.latest.lookup rs = some infos ∧ Lists inetAddr infos domain cmd id := by
  cases hl : s.latest.lookup rs with
  | none =>
    rw [hk.absent rs hl]
    constructor
    · rintro ⟨_, hc, _⟩
      cases hc
    · rintro ⟨_, hc, _⟩
      cases hc
  | some infos =>
    rw [(hk.latest rs infos hl).2.lists]
    simp

theorem GivesUpOwn.spares (h : GivesUpOwn inetAddr s rs infos) (hk : Known inetAddr s)
    (hrep : Represents inetAddr infos new) (domain cmd id)
    (hold : Registers (s.sessions.lookup rs) domain cmd id) (hnew : ¬ Registers new domain cmd id) :
    ∀ rs', rs' ≠ rs → ¬ Registers (s.sessions.lookup rs') domain cmd id := by
  intro rs' hne hreg
  obtain ⟨old, hl, i, hi, hdomain, hcmd, n, hn, rfl⟩ := (hk.registers_iff rs domain cmd id).mp hold
  obtain ⟨infos', hl', hlists⟩ := (hk.registers_iff rs' domain cmd n.id).mp hreg
  rcases h old hl i hi domain hdomain cmd hcmd n hn with hnew' | hnone
  · exact hnew ((hrep.lists domain cmd n.id).mpr hnew')
  · exact hnone ⟨rs', infos'⟩ (AList.mem_lookup_iff.mp hl') hne hlists

theorem represents_nil : Represents inetAddr [] none :=
  ⟨fun _ _ _ => ⟨nofun, nofun⟩, nofun⟩

theorem Present.step (hp : Present s) (hk : Known inetAddr s)
    (hC : Unshared inetAddr s a) : Present (step inetAddr a s) := by
  have hmove := step_moves hk a
  generalize NS.step inetAddr a s = s' at hmove
  cases hmove with
  | stay hdomains hsessions _ _ =>
    unfold Present
    simp only [hsessions, hdomains]
    exact hp
  | @register rs infos new _ _ haccepted hrep hchange _ _ =>
    exact hp.change hchange ((hC infos rfl haccepted).spares hk hrep)
  | disconnect hchange _ _ =>
    exact hp.change hchange (GivesUpOwn.spares hC hk represents_nil)

end

/-- **As long as a session gives up only nodes that no other lists,** every node of a latest
registration is in the directory. -/
theorem shared_nodes_stay (inetAddr : String → UInt32) (as : List Action)
    (h : Along (exec inetAddr) (Unshared inetAddr) as init) :
    Post (AllListed inetAddr) (fun _ => False) (run (exec inetAddr) as init) := by
  have hinit : Known inetAddr init ∧ Present init := by
    refine ⟨known_init, ?_⟩
    rintro rs domain cmd id ⟨c, hc, _⟩
    cases hc
  have hrun : Post (fun s => Known inetAddr s ∧ Present s) (fun _ => False)
      (run (exec inetAddr) as init) := by
    refine post_run (fun s a hs hC => ?_) as init h hinit
    exact ⟨hs.1.step a, hs.2.step hs.1 hC⟩
  refine hrun.imp (fun s hs => ?_)
  rintro ⟨rs, infos⟩ he i hi domain hdomain cmd hcmd n hn
  refine hs.2 rs domain cmd n.id ((hs.1.registers_iff rs domain cmd n.id).mpr ?_)
  exact ⟨infos, AList.mem_lookup_iff.mpr he, i, hi, hdomain, hcmd, n, hn, rfl⟩

def sharedNode : List Action :=
  [.connect 0, .connect 1, .register 0 (some [entry "a" "10.0.0.1" [1] 5]),
    .register 1 (some [entry "a" "10.0.0.1" [2] 5]), .disconnect 0]

theorem shared_nodes_stay_apart : Along (exec inetAddr4) (Unshared inetAddr4) sharedNode init ∧
      Post (AllListed inetAddr4) (fun _ => False) (run (exec inetAddr4) sharedNode init) :=
  ⟨by decide +kernel, shared_nodes_stay inetAddr4 sharedNode (by decide +kernel)⟩

/-- A client connects again before its old session is found to be gone: the old
session's disconnect takes the node of the new one out of the directory. -/
theorem disconnect_drops_shared_node : Post (fun s => ¬ AllListed inetAddr4 s) (fun _ => False)
      (run (exec inetAddr4)
        [.connect 0, .register 0 (some [entry "a" "10.0.0.1" [1] 5]), .connect 1,
          .register 1 (some [entry "a" "10.0.0.1" [1] 5]), .disconnect 0] init) := by
  decide +kernel

end Helens.NS
