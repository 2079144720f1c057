import Helens.Lib.Runs
import Helens.NSProtocol

/-! The name server. A session registers one node under domains and commands, and a later
registration replaces the earlier one: `set` deletes, adds or renews what differs. A disconnect
registers nothing. -/

namespace Helens.NS

open Lib.Runs

/-! ## Requests -/

structure Node where
  ip : Option String
  port : Option UInt32
  weight : Option UInt32

structure RegisterInfo where
  domain : Option String
  cmds : List UInt32
  node : Option Node

abbrev Cmds := AList fun _ : String => List UInt32

def Cmds.insertCmd (m : Cmds) (domain : String) (cmd : UInt32) : Cmds :=
  m.insert domain (((m.lookup domain).getD []).insert cmd)

def Cmds.insertAll (m : Cmds) (domain : String) (cmds : List UInt32) : Cmds :=
  if domain ∈ m then m else m.insert domain cmds

structure NSClientInfo where
  node : NSNode
  domain2cmds : Cmds

inductive Attr where
  | node
  | domain
  | cmds
  | ip
  | port
  | weight

/-- What the log says about a request that is turned down. -/
inductive Rejection where
  | isNull (attr : Attr)
  | ip
  | oldNode
  | newNode

def require {α : Type} (attr : Attr) : Option α → Except Rejection α
  | none => .error (.isNull attr)
  | some a => .ok a

def reject (bad : Prop) [Decidable bad] (r : Rejection) : Except Rejection Unit :=
  if bad then .error r else .ok ()

section
variable (inetAddr : String → UInt32)

def addInfo (old new : Option NSClientInfo) (info : RegisterInfo) :
    Except Rejection NSClientInfo := do
  let node ← require .node info.node
  let domain ← require .domain info.domain
  reject (info.cmds.length = 0) (.isNull .cmds)
  let ip ← require .ip node.ip
  let port ← require .port node.port
  let weight ← require .weight node.weight
  let nsNode := NSNode.new inetAddr ip port.toUInt16 weight
  reject (nsNode.id >>> 32 = 0) .ip
  reject (∃ o ∈ old, o.node.id ≠ nsNode.id) .oldNode
  reject (∃ n ∈ new, n.node.id ≠ nsNode.id) .newNode
  let client := new.getD { node := nsNode, domain2cmds := ∅ }
  return { client with
    domain2cmds := info.cmds.foldl (fun m cmd => m.insertCmd domain cmd) client.domain2cmds }

def addInfos (old : Option NSClientInfo) :
    List RegisterInfo → Option NSClientInfo → Except Rejection (Option NSClientInfo)
  | [], new => .ok new
  | info :: infos, new => do
    let client ← addInfo inetAddr old new info
    addInfos old infos (some client)

end

/-! ## Differences -/

def missingCmd (domain : String) (found : List UInt32) (acc : Cmds × Cmds) (n : UInt32) :
    Cmds × Cmds :=
  if n ∈ found then (acc.1, acc.2.insertCmd domain n) else (acc.1.insertCmd domain n, acc.2)

/-- What a map has and another lacks, and what both have: the first loop of `diff`; the second is
the same with the maps exchanged. -/
def missing (other : Cmds) : List (Sigma fun _ : String => List UInt32) → Cmds × Cmds → Cmds × Cmds
  | [], acc => acc
  | ⟨domain, cmds⟩ :: rest, (lacking, comms) =>
    match other.lookup domain with
    | none => missing other rest (lacking.insertAll domain cmds, comms)
    | some found =>
      missing other rest (cmds.foldl (missingCmd domain found) (lacking, comms))

structure Diff where
  dels : Cmds
  news : Cmds
  comms : Cmds

def diff (old new : Cmds) : Diff :=
  let (dels, comms) := missing new old.entries (∅, ∅)
  let (news, _) := missing old new.entries (∅, ∅)
  { dels := dels, news := news, comms := comms }

/-! ## Sessions -/

/-- `connected` are the streams with an open socket; `latest` is what each one's latest accepted
registration said. -/
structure State where
  domains : NSDomainSet := ∅
  sessions : AList (fun _ : Nat => NSClientInfo) := ∅
  connected : List Nat := []
  latest : AList (fun _ : Nat => List RegisterInfo) := ∅

def delEntry (id : UInt64) (domains : NSDomainSet) (e : Sigma fun _ : String => List UInt32) :
    NSDomainSet :=
  match domains.lookup e.1 with
  | none => domains
  | some d => domains.insert e.1 (e.2.foldl (fun d cmd => NSDomain.del d cmd id) d)

def delAll (id : UInt64) (dels : Cmds) (domains : NSDomainSet) : NSDomainSet :=
  dels.entries.foldl (delEntry id) domains

/-- One domain of what `set` adds; a missing domain is created. -/
def addEntry (node : NSNode) (domains : NSDomainSet) (e : Sigma fun _ : String => List UInt32) :
    NSDomainSet :=
  domains.insert e.1
    (e.2.foldl (fun d cmd => NSDomain.add d cmd node) ((domains.lookup e.1).getD ∅))

def addAll (node : NSNode) (news : Cmds) (domains : NSDomainSet) : NSDomainSet :=
  news.entries.foldl (addEntry node) domains

def domain2cmds : Option NSClientInfo → Cmds
  | none => ∅
  | some client => client.domain2cmds

def update (old new : Option NSClientInfo) (domains : NSDomainSet) : NSDomainSet :=
  let d := diff (domain2cmds old) (domain2cmds new)
  let domains := match old with
    | none => domains
    | some o => delAll o.node.id d.dels domains
  let domains := match new with
    | none => domains
    | some n => addAll n.node d.news domains
  match old, new with
  | some o, some n =>
    if d.comms.entries.length ≠ 0 ∧ o.node.weight ≠ n.node.weight then addAll n.node d.comms domains
    else domains
  | _, _ => domains

def set (s : State) (rs : Nat) (new : Option NSClientInfo) : State :=
  let new := if rs ∈ s.connected then new else none
  { s with
    domains := update (s.sessions.lookup rs) new s.domains
    sessions := match new with
      | none => s.sessions.erase rs
      | some client => s.sessions.insert rs client }

section
variable (inetAddr : String → UInt32)

/-- `handleRegister`: the answer, and the state behind it. `rr` is what `getAsPB` reads. -/
def handleRegister (s : State) (rs : Nat) (rr : Option (List RegisterInfo)) : Bool × State :=
  match rr with
  | none => (false, s)
  | some infos =>
    match addInfos inetAddr (s.sessions.lookup rs) infos none with
    | .error _ => (false, s)
    | .ok new => (true, set s rs new)

def onDisconnect (s : State) (rs : Nat) : State := set s rs none

inductive Action where
  | connect (rs : Nat)
  | register (rs : Nat) (rr : Option (List RegisterInfo))
  /-- the stream closes, which calls `onDisconnect` if it was connected -/
  | disconnect (rs : Nat)

/-- The latest registration, behind a request that was accepted or not. -/
def record (s : State) (rs : Nat) (rr : Option (List RegisterInfo)) (accepted : Bool) : State :=
  match rr with
  | none => s
  | some infos =>
    if accepted ∧ rs ∈ s.connected then { s with latest := s.latest.insert rs infos } else s

def step (a : Action) (s : State) : State :=
  match a with
  | .connect rs => { s with connected := s.connected.insert rs }
  | .register rs rr =>
    let (accepted, s) := handleRegister inetAddr s rs rr
    record s rs rr accepted
  | .disconnect rs =>
    if rs ∈ s.connected then
      let s := onDisconnect s rs
      { s with connected := s.connected.erase rs, latest := s.latest.erase rs }
    else s

def init : State := {}

def exec (a : Action) (s : State) : Except Empty State := .ok (step inetAddr a s)

end

end Helens.NS
