import Helens.NameServer

/-! What a registration does to the directory. `diff` sorts the commands of two registrations; `set`
deletes those that go, adds those that come and renews those that stay if the weight has changed. -/

namespace Helens.NS

open Lib.Runs List

/-! ## Differences -/

def Cmds.Has (m : Cmds) (domain : String) (cmd : UInt32) : Prop :=
  ∃ cmds ∈ m.lookup domain, cmd ∈ cmds
  deriving Decidable

theorem Cmds.has_iff_mem (m : Cmds) (domain cmd) :
    Cmds.Has m domain cmd ↔ ∃ e ∈ m.entries, e.1 = domain ∧ cmd ∈ e.2 := by
  constructor
  · rintro ⟨cmds, hlookup, hcmd⟩
    exact ⟨⟨domain, cmds⟩, AList.mem_lookup_iff.mp hlookup, rfl, hcmd⟩
  · rintro ⟨⟨_, cmds⟩, hmem, rfl, hcmd⟩
    exact ⟨cmds, AList.mem_lookup_iff.mpr hmem, hcmd⟩

theorem Cmds.not_has_empty (domain cmd) : ¬ Cmds.Has ∅ domain cmd := by
  rintro ⟨cmds, h, _⟩
  rw [AList.lookup_empty] at h
  cases h

theorem Cmds.has_insert (m : Cmds) (domain cmds domain' cmd) : Cmds.Has (m.insert domain cmds)
    domain' cmd ↔
      if domain' = domain then cmd ∈ cmds else Cmds.Has m domain' cmd := by
  unfold Cmds.Has
  split
  · rename_i h
    rw [h, AList.lookup_insert]
    simp
  · rename_i h
    rw [AList.lookup_insert_ne h]

theorem Cmds.has_insertCmd (m : Cmds) (domain cmd domain' cmd') : Cmds.Has (m.insertCmd domain cmd)
    domain' cmd' ↔
      Cmds.Has m domain' cmd' ∨ domain' = domain ∧ cmd' = cmd := by
  unfold Cmds.insertCmd
  rw [Cmds.has_insert]
  split
  · rename_i h
    subst h
    rw [mem_insert_iff]
    cases hm : m.lookup domain' with
    | none => simp [Cmds.Has, hm]
    | some cmds => simp [Cmds.Has, hm, or_comm]
  · rename_i h
    simp [h]

variable {domain domain' : String}

theorem Cmds.has_insertAll (h : domain ∉ m) (cmds domain' cmd) : Cmds.Has
    (m.insertAll domain cmds) domain' cmd ↔
      Cmds.Has m domain' cmd ∨ domain' = domain ∧ cmd ∈ cmds := by
  unfold Cmds.insertAll
  rw [if_neg h, Cmds.has_insert]
  split
  · rename_i heq
    subst heq
    have hnone : ¬ Cmds.Has m domain' cmd := by
      rintro ⟨cs, hcs, _⟩
      rw [AList.lookup_eq_none.mpr h] at hcs
      cases hcs
    simp [hnone]
  · rename_i heq
    simp [heq]

theorem Cmds.mem_insertCmd {m : Cmds} {cmd : UInt32} :
    domain' ∈ m.insertCmd domain cmd ↔ domain' = domain ∨ domain' ∈ m :=
  AList.mem_insert m

theorem Cmds.mem_insertAll {m : Cmds} {cmds : List UInt32}
    (h : domain' ∈ m.insertAll domain cmds) : domain' = domain ∨ domain' ∈ m := by
  unfold Cmds.insertAll at h
  split at h
  · exact .inr h
  · exact (AList.mem_insert m).mp h

theorem missingCmd_keys {found : List UInt32} {cmds : List UInt32}
    {acc : Cmds × Cmds} (h : domain' ∈ (cmds.foldl (missingCmd domain found) acc).1) :
    domain' = domain ∨ domain' ∈ acc.1 := by
  induction cmds generalizing acc with
  | nil => exact .inr h
  | cons n cmds ih =>
    rcases ih h with h | h
    · exact .inl h
    · unfold missingCmd at h
      split at h
      · exact .inr h
      · exact Cmds.mem_insertCmd.mp h

theorem has_missingCmd (domain) (found cmds : List UInt32) (acc domain' cmd) :
    (Cmds.Has (cmds.foldl (missingCmd domain found) acc).1 domain' cmd ↔
      Cmds.Has acc.1 domain' cmd ∨ domain' = domain ∧ cmd ∈ cmds ∧ cmd ∉ found) ∧
    (Cmds.Has (cmds.foldl (missingCmd domain found) acc).2 domain' cmd ↔
      Cmds.Has acc.2 domain' cmd ∨ domain' = domain ∧ cmd ∈ cmds ∧ cmd ∈ found) := by
  induction cmds generalizing acc with
  | nil => simp
  | cons n cmds ih =>
    obtain ⟨hlack, hcomm⟩ := ih (missingCmd domain found acc n)
    rw [foldl_cons, hlack, hcomm]
    unfold missingCmd
    split
    · rw [Cmds.has_insertCmd]
      grind
    · rw [Cmds.has_insertCmd]
      grind

theorem has_missing (other) {entries : List (Sigma fun _ : String => List UInt32)}
    (hnodup : entries.NodupKeys) (acc) (hacc : ∀ e ∈ entries, e.1 ∉ acc.1)
    (domain cmd) :
    (Cmds.Has (missing other entries acc).1 domain cmd ↔ Cmds.Has acc.1 domain cmd ∨
      (∃ e ∈ entries, e.1 = domain ∧ cmd ∈ e.2) ∧ ¬ Cmds.Has other domain cmd) ∧
    (Cmds.Has (missing other entries acc).2 domain cmd ↔ Cmds.Has acc.2 domain cmd ∨
      (∃ e ∈ entries, e.1 = domain ∧ cmd ∈ e.2) ∧ Cmds.Has other domain cmd) := by
  induction entries generalizing acc with
  | nil => simp [missing]
  | cons e rest ih =>
    obtain ⟨dom, cmds⟩ := e
    obtain ⟨lacking, comms⟩ := acc
    obtain ⟨hnot, hrest⟩ := nodupKeys_cons.mp hnodup
    have hdom : dom ∉ lacking := hacc _ mem_cons_self
    rw [exists_mem_cons_iff]
    -- the entries to come are about other domains
    have hacc' : ∀ m : Cmds, (∀ d, d ∈ m → d = dom ∨ d ∈ lacking) → ∀ e ∈ rest, e.1 ∉ m := by
      intro m hm e he hin
      rcases hm e.1 hin with rfl | hlack
      · exact hnot (mem_map.mpr ⟨e, he, rfl⟩)
      · exact hacc e (mem_cons_of_mem _ he) hlack
    unfold missing
    split
    · rename_i hnone
      have hno : ∀ c, ¬ Cmds.Has other dom c := by
        rintro c ⟨cs, hcs, _⟩
        rw [hnone] at hcs
        cases hcs
      obtain ⟨h₁, h₂⟩ := ih hrest (lacking.insertAll dom cmds, comms)
        (hacc' _ fun _ => Cmds.mem_insertAll)
      rw [h₁, h₂, Cmds.has_insertAll hdom]
      grind
    · rename_i found hfound
      have hhas : ∀ c, Cmds.Has other dom c ↔ c ∈ found := by
        intro c
        simp [Cmds.Has, hfound]
      obtain ⟨h₁, h₂⟩ := ih hrest (cmds.foldl (missingCmd dom found) (lacking, comms))
        (hacc' _ fun _ => missingCmd_keys)
      obtain ⟨h₃, h₄⟩ := has_missingCmd dom found cmds (lacking, comms) domain cmd
      rw [h₁, h₂, h₃, h₄]
      grind

theorem has_diff (old new domain cmd) :
    (Cmds.Has (diff old new).dels domain cmd ↔
      Cmds.Has old domain cmd ∧ ¬ Cmds.Has new domain cmd) ∧
    (Cmds.Has (diff old new).news domain cmd ↔
      Cmds.Has new domain cmd ∧ ¬ Cmds.Has old domain cmd) ∧
    (Cmds.Has (diff old new).comms domain cmd ↔
      Cmds.Has old domain cmd ∧ Cmds.Has new domain cmd) := by
  have hempty : ∀ m : Cmds, ∀ e ∈ m.entries, e.1 ∉ (∅ : Cmds) := fun _ _ _ => AList.notMem_empty _
  obtain ⟨h₁, h₂⟩ := has_missing new old.nodupKeys (∅, ∅) (hempty old) domain cmd
  obtain ⟨h₃, _⟩ := has_missing old new.nodupKeys (∅, ∅) (hempty new) domain cmd
  have hno := Cmds.not_has_empty domain cmd
  rw [← Cmds.has_iff_mem] at h₁ h₂ h₃
  refine ⟨?_, ?_, ?_⟩
  · exact h₁.trans (or_iff_right hno)
  · exact h₃.trans (or_iff_right hno)
  · exact h₂.trans (or_iff_right hno)

def Cmds.pairs (m : Cmds) : Set (String × UInt32) := {e | Cmds.Has m e.1 e.2}

theorem diff_partitions (old new : Cmds) : (diff old new).dels.pairs = old.pairs \ new.pairs ∧
    (diff old new).news.pairs = new.pairs \ old.pairs ∧
    (diff old new).comms.pairs = old.pairs ∩ new.pairs :=
  ⟨Set.ext fun _ => (has_diff ..).1, Set.ext fun _ => (has_diff ..).2.1,
    Set.ext fun _ => (has_diff ..).2.2⟩

/-! ## What `set` does to the directory -/

theorem NSDomain.find_foldl_del (d) (cmds : List UInt32) (id cmd id') : NSDomain.find (cmds.foldl
    (fun d cmd => NSDomain.del d cmd id) d) cmd id' =
      if cmd ∈ cmds ∧ id' = id then none else NSDomain.find d cmd id' := by
  refine (foldl_writes (NSDomain.find · cmd id') (fun d n => NSDomain.find_del d n cmd id id')
    cmds d).trans (if_congr ?_ rfl rfl)
  simp

theorem NSDomain.find_foldl_add (d) (cmds : List UInt32) (node : NSNode) (cmd id) :
    NSDomain.find (cmds.foldl (fun d cmd => NSDomain.add d cmd node) d) cmd id =
      if cmd ∈ cmds ∧ id = node.id then some node else NSDomain.find d cmd id := by
  refine (foldl_writes (NSDomain.find · cmd id) (fun d n => NSDomain.find_add d n cmd node id)
    cmds d).trans (if_congr ?_ rfl rfl)
  simp

theorem find_delEntry (id domains) (e : Sigma fun _ : String => List UInt32) (domain cmd id') :
    NSDomainSet.find (delEntry id domains e) domain cmd id' =
      if (e.1 = domain ∧ cmd ∈ e.2) ∧ id' = id then none
      else NSDomainSet.find domains domain cmd id' := by
  unfold delEntry
  split
  · rename_i hnone
    split
    · rename_i heq
      rw [NSDomainSet.find, ← heq.1.1, hnone]
      rfl
    · rfl
  · rename_i d hd
    rw [NSDomainSet.find_insert, NSDomain.find_foldl_del]
    by_cases hdom : domain = e.1
    · subst hdom
      simp [NSDomainSet.find, hd]
    · simp [hdom, Ne.symm hdom]

theorem find_addEntry (node : NSNode) (domains)
    (e : Sigma fun _ : String => List UInt32) (domain cmd id) :
    NSDomainSet.find (addEntry node domains e) domain cmd id =
      if (e.1 = domain ∧ cmd ∈ e.2) ∧ id = node.id then some node
      else NSDomainSet.find domains domain cmd id := by
  unfold addEntry
  rw [NSDomainSet.find_insert, NSDomain.find_foldl_add]
  by_cases hdom : domain = e.1
  · subst hdom
    unfold NSDomainSet.find
    cases domains.lookup e.1 with
    | none => simp [NSDomain.find]
    | some d => simp
  · simp [hdom, Ne.symm hdom]

theorem find_delAll (id dels domains domain cmd id') : NSDomainSet.find (delAll id dels domains)
    domain cmd id' =
      if Cmds.Has dels domain cmd ∧ id' = id then none
      else NSDomainSet.find domains domain cmd id' := by
  refine (foldl_writes (NSDomainSet.find · domain cmd id')
    (fun ds e => find_delEntry id ds e domain cmd id') dels.entries domains).trans
    (if_congr ?_ rfl rfl)
  rw [Cmds.has_iff_mem]
  simp only [← and_assoc, exists_and_right]

theorem find_addAll (node : NSNode) (news domains domain cmd id) : NSDomainSet.find
    (addAll node news domains) domain cmd id =
      if Cmds.Has news domain cmd ∧ id = node.id then some node
      else NSDomainSet.find domains domain cmd id := by
  refine (foldl_writes (NSDomainSet.find · domain cmd id)
    (fun ds e => find_addEntry node ds e domain cmd id) news.entries domains).trans
    (if_congr ?_ rfl rfl)
  rw [Cmds.has_iff_mem]
  simp only [← and_assoc, exists_and_right]

theorem find_update_none_some (n : NSClientInfo) (domains domain cmd id) :
    NSDomainSet.find (update none (some n) domains) domain cmd id =
      if Cmds.Has n.domain2cmds domain cmd ∧ id = n.node.id then some n.node
      else NSDomainSet.find domains domain cmd id := by
  have hno := Cmds.not_has_empty domain cmd
  simp only [update, find_addAll, domain2cmds, has_diff, hno, not_false_eq_true, and_true]

theorem find_update_some_none (o : NSClientInfo) (domains domain cmd id) :
    NSDomainSet.find (update (some o) none domains) domain cmd id =
      if Cmds.Has o.domain2cmds domain cmd ∧ id = o.node.id then none
      else NSDomainSet.find domains domain cmd id := by
  have hno := Cmds.not_has_empty domain cmd
  simp only [update, find_delAll, domain2cmds, has_diff, hno, not_false_eq_true, and_true]

/-- A registration that replaces another one: what is kept is renewed if the weight
has changed, what is new is added, what is left out goes. -/
theorem find_update_some_some (o n : NSClientInfo) (domains domain cmd id) :
    NSDomainSet.find (update (some o) (some n) domains) domain cmd id =
      if Cmds.Has n.domain2cmds domain cmd ∧ id = n.node.id ∧
          (Cmds.Has o.domain2cmds domain cmd → o.node.weight ≠ n.node.weight) then some n.node
      else if Cmds.Has o.domain2cmds domain cmd ∧ ¬ Cmds.Has n.domain2cmds domain cmd ∧
          id = o.node.id then none
      else NSDomainSet.find domains domain cmd id := by
  have hcomms : Cmds.Has (diff o.domain2cmds n.domain2cmds).comms domain cmd →
      (diff o.domain2cmds n.domain2cmds).comms.entries.length ≠ 0 := by
    intro h
    obtain ⟨e, he, _⟩ := (Cmds.has_iff_mem _ _ _).mp h
    exact Nat.ne_of_gt (length_pos_of_mem he)
  unfold update
  dsimp only [domain2cmds]
  split
  · simp only [find_addAll, find_delAll, has_diff]
    grind
  · rename_i hskip
    have hweight : Cmds.Has o.domain2cmds domain cmd → Cmds.Has n.domain2cmds domain cmd →
        o.node.weight = n.node.weight := by
      intro ho hn
      by_contra hne
      exact hskip ⟨hcomms ((has_diff _ _ _ _).2.2.mpr ⟨ho, hn⟩), hne⟩
    simp only [find_addAll, find_delAll, has_diff]
    grind

def Registers (client : Option NSClientInfo) (domain : String) (cmd : UInt32) (id : UInt64) :
    Prop :=
  ∃ c ∈ client, Cmds.Has c.domain2cmds domain cmd ∧ c.node.id = id

section
variable {old new : Option NSClientInfo} {domain : String} {cmd : UInt32} {id : UInt64}

theorem find_update_keep (hold : ¬ Registers old domain cmd id)
    (hnew : ¬ Registers new domain cmd id) (domains) :
    NSDomainSet.find (update old new domains) domain cmd id =
      NSDomainSet.find domains domain cmd id := by
  have hold' : ∀ o ∈ old, Cmds.Has o.domain2cmds domain cmd → id ≠ o.node.id :=
    fun o ho hhas heq => hold ⟨o, ho, hhas, heq.symm⟩
  have hnew' : ∀ n ∈ new, Cmds.Has n.domain2cmds domain cmd → id ≠ n.node.id :=
    fun n hn hhas heq => hnew ⟨n, hn, hhas, heq.symm⟩
  cases old with
  | none =>
    cases new with
    | none => rfl
    | some n =>
      rw [find_update_none_some, if_neg fun h => hnew' n rfl h.1 h.2]
  | some o =>
    cases new with
    | none =>
      rw [find_update_some_none, if_neg fun h => hold' o rfl h.1 h.2]
    | some n =>
      rw [find_update_some_some, if_neg fun h => hnew' n rfl h.1 h.2.1,
        if_neg fun h => hold' o rfl h.1 h.2.2]

theorem find_update_del (hid : ∀ o ∈ old, ∀ n ∈ new, o.node.id = n.node.id)
    (hold : Registers old domain cmd id) (hnew : ¬ Registers new domain cmd id)
    (domains) : NSDomainSet.find (update old new domains) domain cmd id = none := by
  obtain ⟨o, rfl, hhas, rfl⟩ := hold
  cases new with
  | none => rw [find_update_some_none, if_pos ⟨hhas, rfl⟩]
  | some n =>
    have hid' := hid o rfl n rfl
    have hnot : ¬ Cmds.Has n.domain2cmds domain cmd := fun h => hnew ⟨n, rfl, h, hid'.symm⟩
    rw [find_update_some_some, if_neg fun h => hnot h.1, if_pos ⟨hhas, hnot, rfl⟩]

/-- What the new registration has is there with its node, or was there before with the
same weight. -/
theorem find_update_new (hhas : Cmds.Has n.domain2cmds domain cmd) (domains) :
    NSDomainSet.find (update old (some n) domains) domain cmd n.node.id = some n.node ∨
      ∃ o ∈ old, Cmds.Has o.domain2cmds domain cmd ∧ o.node.weight = n.node.weight ∧
        NSDomainSet.find (update old (some n) domains) domain cmd n.node.id =
          NSDomainSet.find domains domain cmd n.node.id := by
  cases old with
  | none =>
    left
    rw [find_update_none_some, if_pos ⟨hhas, rfl⟩]
  | some o =>
    rw [find_update_some_some]
    split
    · exact .inl rfl
    · rename_i hkept
      have ho : Cmds.Has o.domain2cmds domain cmd ∧ o.node.weight = n.node.weight := by
        by_contra hne
        exact hkept ⟨hhas, rfl, fun h hw => hne ⟨h, hw⟩⟩
      rw [if_neg fun h => h.2.1 hhas]
      exact .inr ⟨o, rfl, ho.1, ho.2, rfl⟩

end

end Helens.NS
