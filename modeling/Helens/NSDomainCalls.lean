import Helens.Lib.Runs
import Helens.NSProtocol

/-! Calls of `NSDomain::add(cmd, node)` and `NSDomain::del(cmd, id)` beside each other: a node set
is looked up under the domain's lock and worked on under its own. A step is one lock section. A set
that is replaced or erased takes with it what others add to it. -/

namespace Helens.NS.Calls

open Lib.Runs List

/-! ## State -/

inductive Op where
  | add (cmd : UInt32) (node : NSNode)
  | del (cmd : UInt32) (id : UInt64)
  deriving DecidableEq

def Op.apply (d : NSDomain) : Op → NSDomain
  | .add cmd node => NSDomain.add d cmd node
  | .del cmd id => NSDomain.del d cmd id

/-- Where an `add` stands; a number is a pointer to a node set. -/
inductive AddPc where
  /-- `ns = get(cmd)` -/
  | get
  /-- `ns.reset(new NSNodeSet(cmd)); add(ns)` -/
  | create
  /-- `ns->add(info)` -/
  | put (ns : Nat)
  | done
  deriving DecidableEq

inductive DelPc where
  /-- `ns = get(cmd)` -/
  | get
  /-- `ns->del(id)` -/
  | erase (ns : Nat)
  /-- `!ns->size()` -/
  | size (ns : Nat)
  /-- `del(cmd)` -/
  | drop
  | done
  deriving DecidableEq

inductive Call where
  | add (cmd : UInt32) (node : NSNode) (pc : AddPc)
  | del (cmd : UInt32) (id : UInt64) (pc : DelPc)
  deriving DecidableEq

def Call.op : Call → Op
  | .add cmd node _ => .add cmd node
  | .del cmd id _ => .del cmd id

def Call.isDone : Call → Bool
  | .add _ _ .done | .del _ _ .done => true
  | _ => false

structure NodeSet where
  cmd : UInt32
  datas : NSNodeSet

structure Domain where
  sets : List NodeSet := []
  datas : AList (fun _ : UInt32 => Nat) := ∅

structure State where
  domain : Domain := {}
  calls : List Call := []

/-! ## Steps -/

def Domain.modify (d : Domain) (ns : Nat) (f : NSNodeSet → NSNodeSet) : Domain :=
  { d with sets := d.sets.modify ns fun x => { x with datas := f x.datas } }

def Call.step (d : Domain) : Call → Call × Domain
  | .add cmd node .get =>
    match d.datas.lookup cmd with
    | none => (.add cmd node .create, d)
    | some ns => (.add cmd node (.put ns), d)
  | .add cmd node .create =>
    (.add cmd node (.put d.sets.length),
      { sets := d.sets ++ [{ cmd := cmd, datas := ∅ }]
        datas := d.datas.insert cmd d.sets.length })
  | .add cmd node (.put ns) =>
    (.add cmd node .done, d.modify ns fun x => NSNodeSet.add x node)
  | .add cmd node .done => (.add cmd node .done, d)
  | .del cmd id .get =>
    match d.datas.lookup cmd with
    | none => (.del cmd id .done, d)
    | some ns => (.del cmd id (.erase ns), d)
  | .del cmd id (.erase ns) =>
    (.del cmd id (.size ns), d.modify ns fun x => NSNodeSet.del x id)
  | .del cmd id (.size ns) =>
    match d.sets[ns]? with
    | none => (.del cmd id (.size ns), d)
    | some x => (.del cmd id (if NSNodeSet.size x.datas = 0 then .drop else .done), d)
  | .del cmd id .drop => (.del cmd id .done, { d with datas := d.datas.erase cmd })
  | .del cmd id .done => (.del cmd id .done, d)

inductive Action where
  | add (cmd : UInt32) (node : NSNode)
  | del (cmd : UInt32) (id : UInt64)
  | step (k : Nat)

def step : Action → State → State
  | .add cmd node, s => { s with calls := s.calls ++ [.add cmd node .get] }
  | .del cmd id, s => { s with calls := s.calls ++ [.del cmd id .get] }
  | .step k, s =>
    match s.calls[k]? with
    | none => s
    | some c =>
      let (c, d) := c.step s.domain
      { domain := d, calls := s.calls.set k c }

def init : State := {}

def exec (a : Action) (s : State) : Except Empty State := .ok (step a s)

/-! ## What a step can do -/

inductive Moves (d : Domain) : Call → Call → Domain → Prop
  | stay {c : Call} : Moves d c c d
  | addNone {cmd node} : d.datas.lookup cmd = none →
    Moves d (.add cmd node .get) (.add cmd node .create) d
  | addSome {cmd node ns} : d.datas.lookup cmd = some ns →
    Moves d (.add cmd node .get) (.add cmd node (.put ns)) d
  | create {cmd node} : Moves d (.add cmd node .create) (.add cmd node (.put d.sets.length))
      { sets := d.sets ++ [{ cmd := cmd, datas := ∅ }]
        datas := d.datas.insert cmd d.sets.length }
  | put {cmd node ns} : Moves d (.add cmd node (.put ns)) (.add cmd node .done)
      (d.modify ns fun x => NSNodeSet.add x node)
  | delNone {cmd id} : d.datas.lookup cmd = none →
    Moves d (.del cmd id .get) (.del cmd id .done) d
  | delSome {cmd id ns} : d.datas.lookup cmd = some ns →
    Moves d (.del cmd id .get) (.del cmd id (.erase ns)) d
  | erase {cmd id ns} : Moves d (.del cmd id (.erase ns)) (.del cmd id (.size ns))
      (d.modify ns fun x => NSNodeSet.del x id)
  | sizeZero {cmd id ns x} : d.sets[ns]? = some x → NSNodeSet.size x.datas = 0 →
    Moves d (.del cmd id (.size ns)) (.del cmd id .drop) d
  | sizeSome {cmd id ns x} : d.sets[ns]? = some x → NSNodeSet.size x.datas ≠ 0 →
    Moves d (.del cmd id (.size ns)) (.del cmd id .done) d
  | drop {cmd id} : Moves d (.del cmd id .drop) (.del cmd id .done)
      { d with datas := d.datas.erase cmd }

theorem Call.step_moves (d) (c : Call) : Moves d c (c.step d).1 (c.step d).2 := by
  cases c with
  | add cmd node pc =>
    cases pc with
    | get =>
      unfold Call.step
      dsimp only
      split
      · exact .addNone ‹_›
      · exact .addSome ‹_›
    | create => exact .create
    | put ns => exact .put
    | done => exact .stay
  | del cmd id pc =>
    cases pc with
    | get =>
      unfold Call.step
      dsimp only
      split
      · exact .delNone ‹_›
      · exact .delSome ‹_›
    | erase ns => exact .erase
    | size ns =>
      unfold Call.step
      dsimp only
      split
      · exact .stay
      · split
        · exact .sizeZero ‹_› ‹_›
        · exact .sizeSome ‹_› ‹_›
    | drop => exact .drop
    | done => exact .stay

/-! ## What is found -/

def Domain.find (d : Domain) (cmd : UInt32) (id : UInt64) : Option NSNode :=
  (d.datas.lookup cmd).bind fun ns => (d.sets[ns]?).bind fun x => x.datas.lookup id

def Domain.Made (d : Domain) (cmd : UInt32) (ns : Nat) : Prop :=
  ∃ x, d.sets[ns]? = some x ∧ x.cmd = cmd

def Domain.Mapped (d : Domain) : Prop :=
  ∀ cmd ns, d.datas.lookup cmd = some ns → d.Made cmd ns

variable {cmd : UInt32} {ns : Nat} {d d' : Domain} {c c' : Call}

variable {d : Domain}

theorem Domain.find_of_lookup (hns : d.datas.lookup cmd = some ns)
    (hx : d.sets[ns]? = some x) (id) : d.find cmd id = x.datas.lookup id := by
  rw [Domain.find, hns, Option.bind_some, hx, Option.bind_some]

theorem Domain.find_of_none (h : d.datas.lookup cmd = none)
    (id) : d.find cmd id = none := by
  rw [Domain.find, h, Option.bind_none]

theorem Domain.getElem?_modify (d : Domain) (ns) (f : NSNodeSet → NSNodeSet) (ns') :
    (d.modify ns f).sets[ns']? =
      d.sets[ns']?.map fun x => if ns = ns' then { x with datas := f x.datas } else x := by
  rw [Domain.modify, List.getElem?_modify]
  cases d.sets[ns']? with
  | none => rfl
  | some x => split <;> rfl

theorem Domain.Mapped.eq (h : d.Mapped) {cmd cmd' : UInt32}
    (hns : d.datas.lookup cmd = some ns) (hmade : d.Made cmd' ns) : cmd = cmd' := by
  obtain ⟨x, hx, rfl⟩ := h cmd ns hns
  obtain ⟨y, hy, rfl⟩ := hmade
  rw [hx] at hy
  rw [Option.some.inj hy]

theorem Domain.find_modify (d : Domain) (ns) (f : NSNodeSet → NSNodeSet)
    (hx : d.sets[ns]? = some x) (cmd id) :
    (d.modify ns f).find cmd id =
      if d.datas.lookup cmd = some ns then (f x.datas).lookup id else d.find cmd id := by
  have hdatas : (d.modify ns f).datas = d.datas := rfl
  unfold Domain.find
  rw [hdatas]
  cases hcmd : d.datas.lookup cmd with
  | none => rfl
  | some ns' =>
    rw [Option.bind_some, Option.bind_some, Domain.getElem?_modify]
    by_cases heq : ns = ns'
    · subst heq
      simp [hx]
    · have hne : ns' ≠ ns := Ne.symm heq
      cases d.sets[ns']? <;> simp [heq, hne]

theorem Domain.find_modify_under (hd : d.Mapped) (hns : d.datas.lookup cmd = some ns)
    {f : NSNodeSet → NSNodeSet} {id : UInt64} {value : Option NSNode}
    (hf : ∀ x id', (f x).lookup id' = if id' = id then value else x.lookup id') (cmd' id') :
    (d.modify ns f).find cmd' id' =
      if cmd' = cmd ∧ id' = id then value else d.find cmd' id' := by
  obtain ⟨x, hx, hmade⟩ := hd cmd ns hns
  rw [Domain.find_modify d ns f hx, hf]
  by_cases heq : cmd' = cmd
  · subst heq
    rw [if_pos hns, Domain.find_of_lookup hns hx]
    simp
  · have hne : d.datas.lookup cmd' ≠ some ns := fun hns' => heq (hd.eq hns' ⟨x, hx, hmade⟩)
    simp [heq, hne]

theorem Domain.find_create (hd : d.Mapped) (hnone : ∀ id, d.find cmd id = none) :
    Domain.find
      { sets := d.sets ++ [{ cmd := cmd, datas := ∅ }]
        datas := d.datas.insert cmd d.sets.length } = d.find := by
  funext cmd' id'
  by_cases heq : cmd' = cmd
  · subst heq
    rw [hnone, Domain.find_of_lookup (AList.lookup_insert _) getElem?_concat_length]
    exact AList.lookup_empty id'
  · cases hns : d.datas.lookup cmd' with
    | none =>
      rw [Domain.find_of_none hns, Domain.find_of_none]
      exact (AList.lookup_insert_ne heq).trans hns
    | some ns =>
      obtain ⟨x, hx, _⟩ := hd cmd' ns hns
      rw [Domain.find_of_lookup hns hx,
        Domain.find_of_lookup ((AList.lookup_insert_ne heq).trans hns)]
      exact getElem?_concat_iff.mpr (.inl hx)

theorem Domain.find_drop (hnone : ∀ id, d.find cmd id = none) :
    Domain.find { d with datas := d.datas.erase cmd } = d.find := by
  funext cmd' id'
  by_cases heq : cmd' = cmd
  · subst heq
    rw [hnone]
    exact Domain.find_of_none (AList.lookup_erase _ _) id'
  · unfold Domain.find
    dsimp only
    rw [AList.lookup_erase_ne heq]

theorem Moves.made (h : Moves d c c' d') (hmade : d.Made cmd ns) : d'.Made cmd ns := by
  obtain ⟨x, hx, rfl⟩ := hmade
  have hmodify : ∀ k f, (d.modify k f).Made x.cmd ns := by
    intro k f
    refine ⟨if k = ns then { x with datas := f x.datas } else x, ?_, ?_⟩
    · rw [Domain.getElem?_modify, hx]
      rfl
    · split <;> rfl
  cases h with
  | create =>
    exact ⟨x, getElem?_concat_iff.mpr (.inl hx), rfl⟩
  | put | erase => exact hmodify _ _
  | _ => exact ⟨x, hx, rfl⟩

/-- The command whose node set the call is about to replace or to erase. -/
def Call.replaces : Call → Option UInt32
  | .add cmd _ .create => some cmd
  | .del cmd _ .drop => some cmd
  | _ => none

theorem Moves.lookup (h : Moves d c c' d')
    (hcmd : c.replaces ≠ some cmd) : d'.datas.lookup cmd = d.datas.lookup cmd := by
  cases h with
  | @create cmd' =>
    have hne : cmd ≠ cmd' := fun heq => hcmd (by rw [heq]; rfl)
    exact AList.lookup_insert_ne hne
  | @drop cmd' =>
    have hne : cmd ≠ cmd' := fun heq => hcmd (by rw [heq]; rfl)
    exact AList.lookup_erase_ne hne
  | _ => rfl

theorem Moves.mapped (h : Moves d c c' d') (hd : d.Mapped) : d'.Mapped := by
  intro cmd ns hns
  by_cases hcmd : c.replaces = some cmd
  · cases h with
    | create =>
      obtain rfl := Option.some.inj hcmd
      rw [AList.lookup_insert] at hns
      obtain rfl := Option.some.inj hns
      exact ⟨_, getElem?_concat_length, rfl⟩
    | drop =>
      obtain rfl := Option.some.inj hcmd
      rw [AList.lookup_erase] at hns
      cases hns
    | stay => exact hd cmd ns hns
    | _ => cases hcmd
  · rw [h.lookup hcmd] at hns
    exact h.made (hd cmd ns hns)

/-! ## Pointers that calls hold -/

def Call.puts : Call → Option Nat
  | .add _ _ (.put ns) => some ns
  | _ => none

/-- A call replaces or erases a node set only if the set is empty and no `add` is about
to write to it. -/
def Unheld (s : State) : Action → Prop
  | .step k =>
    ∀ c ∈ s.calls[k]?, ∀ cmd ∈ c.replaces, ∀ ns ∈ s.domain.datas.lookup cmd,
      (∀ x ∈ s.domain.sets[ns]?, NSNodeSet.size x.datas = 0) ∧ ∀ i ∈ s.calls, i.puts ≠ some ns
  | _ => True

-- The command is looked for in the option: by default all of `UInt32` would be gone through.
instance (s : State) : (a : Action) → Decidable (Unheld s a)
  | .step k =>
    have (o : Option UInt32) (p : UInt32 → Prop) [DecidablePred p] :
        Decidable (∀ cmd ∈ o, p cmd) := Option.decidableForallMem o
    inferInstanceAs (Decidable (∀ c ∈ s.calls[k]?, _))
  | .add _ _ | .del _ _ => inferInstanceAs (Decidable True)

/-- What holds of a pointer in a call's hand: an `add` writes to the set that is under
its command, a `del` works on one that was. -/
def Call.Holds (d : Domain) : Call → Prop
  | .add cmd _ (.put ns) => d.datas.lookup cmd = some ns
  | .del cmd _ (.erase ns) => d.Made cmd ns
  | .del cmd _ (.size ns) => d.Made cmd ns
  | _ => True

theorem Call.Holds.moves {c c' i : Call} (hi : i.Holds d)
    (h : Moves d c c' d') (hput : ∀ cmd ns, c.replaces = some cmd →
      d.datas.lookup cmd = some ns → i.puts ≠ some ns) : i.Holds d' := by
  cases i with
  | add cmd node pc =>
    cases pc with
    | put ns =>
      have hne : c.replaces ≠ some cmd := fun heq => hput cmd ns heq hi rfl
      exact (h.lookup hne).trans hi
    | _ => trivial
  | del cmd id pc =>
    cases pc with
    | erase ns => exact h.made hi
    | size ns => exact h.made hi
    | _ => trivial

theorem Moves.holds (h : Moves d c c' d') (hc : c.Holds d) (hd : d.Mapped) : c'.Holds d' := by
  have hmade : ∀ {cmd ns}, d.Made cmd ns → d'.Made cmd ns := h.made
  cases h with
  | stay => exact hc
  | addSome hns => exact hns
  | create => exact AList.lookup_insert _
  | delSome hns => exact hd _ _ hns
  | erase => exact hmade hc
  | _ => trivial

/-! ## Empty sets -/

/-- A call that will not leave the set of the command empty. -/
def Call.Tends (cmd : UInt32) (ns : Nat) : Call → Prop
  | .add cmd' _ (.put ns') => cmd' = cmd ∧ ns' = ns
  | .del cmd' _ (.size ns') => cmd' = cmd ∧ ns' = ns
  | .del cmd' _ .drop => cmd' = cmd
  | _ => False

def Domain.Empty (d : Domain) (ns : Nat) : Prop :=
  ∃ x, d.sets[ns]? = some x ∧ NSNodeSet.size x.datas = 0

/-- A set that is empty behind a step is tended by the call, or it was empty before and
the call goes on tending it if it did. -/
theorem Moves.tends (h : Moves d c c' d') (hc : c.Holds d) (hd : d.Mapped)
    (hns : d'.datas.lookup cmd = some ns) (hempty : d'.Empty ns) :
    c'.Tends cmd ns ∨
      d.datas.lookup cmd = some ns ∧ d.Empty ns ∧ (c.Tends cmd ns → c'.Tends cmd ns) := by
  have hkept : ∀ {k f}, (d.modify k f).Empty ns → k ≠ ns → d.Empty ns := by
    rintro k f ⟨x, hx, hsize⟩ hne
    rw [Domain.getElem?_modify] at hx
    obtain ⟨y, hy, rfl⟩ := Option.map_eq_some_iff.mp hx
    rw [if_neg hne] at hsize
    exact ⟨y, hy, hsize⟩
  cases h with
  | stay => exact .inr ⟨hns, hempty, id⟩
  | addNone | addSome | delNone | delSome => exact .inr ⟨hns, hempty, nofun⟩
  | @create cmd' =>
    by_cases hcmd : cmd = cmd'
    · subst hcmd
      rw [AList.lookup_insert] at hns
      exact .inl ⟨rfl, Option.some.inj hns⟩
    · rw [AList.lookup_insert_ne hcmd] at hns
      obtain ⟨x, hx, _⟩ := hd cmd ns hns
      obtain ⟨x', hx', hsize⟩ := hempty
      rw [List.getElem?_append_left (List.getElem?_eq_some_iff.mp hx).1] at hx'
      exact .inr ⟨hns, ⟨x', hx', hsize⟩, nofun⟩
  | @put cmd' node ns' =>
    by_cases heq : ns' = ns
    · -- the set holds the node that was added
      obtain ⟨x, hx, hsize⟩ := hempty
      rw [Domain.getElem?_modify] at hx
      obtain ⟨y, _, rfl⟩ := Option.map_eq_some_iff.mp hx
      rw [if_pos heq] at hsize
      have hnone := (NSNodeSet.size_eq_zero_iff _).mp hsize node.id
      rw [NSNodeSet.lookup_add, if_pos rfl] at hnone
      cases hnone
    · exact .inr ⟨hns, hkept hempty heq, fun ht => absurd ht.2 heq⟩
  | @erase cmd' id ns' =>
    by_cases heq : ns' = ns
    · subst heq
      exact .inl ⟨(hd.eq hns hc).symm, rfl⟩
    · exact .inr ⟨hns, hkept hempty heq, nofun⟩
  | sizeZero => exact .inr ⟨hns, hempty, And.left⟩
  | @sizeSome cmd' id ns' x hx hpos =>
    refine .inr ⟨hns, hempty, ?_⟩
    rintro ⟨_, rfl⟩
    obtain ⟨y, hy, hsize⟩ := hempty
    rw [hx] at hy
    obtain rfl := Option.some.inj hy
    exact absurd hsize hpos
  | @drop cmd' id =>
    have hne : cmd ≠ cmd' := by
      rintro rfl
      rw [AList.lookup_erase] at hns
      cases hns
    rw [AList.lookup_erase_ne hne] at hns
    exact .inr ⟨hns, hempty, fun ht => absurd ht.symm hne⟩

end Helens.NS.Calls
