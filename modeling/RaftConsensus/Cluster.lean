import RaftConsensus.Process
import RaftConsensus.Scripts

namespace RaftConsensus

variable {σ : Type}

structure Cluster where
  config : ServerID → Option Config
  localID_eq : ∀ n c, config n = some c → c.localID = n

/-- A machine: either only its disk is left, or a process runs on it. `calls` are the RPCs
that goroutines of the process still wait for. -/
inductive Host (σ : Type)
  | down (disk : Disk)
  | up (raft : Raft σ) (calls : List ℕ)

def Host.disk : Host σ → Disk
  | .down d => d
  | .up r _ => r.disk

structure Packet where
  src : ServerID
  dst : ServerID
  req : Request
deriving DecidableEq

/-- An answer to the RPC `call`; `stamp` is the length of the history when it was handled. -/
structure Reply where
  call : ℕ
  resp : Response
  stamp : ℕ
deriving DecidableEq

/-- Every RPC ever started and every answer ever given stay available: any of them may be
delivered late, in any order, several times or never. -/
structure World (σ : Type) where
  hosts : ServerID → Host σ
  net : List Packet
  replies : List Reply
  history : List (ServerID × Event)

/-- A `ReadIndex` call is named by the position at which its beginning is recorded. -/
def Raft.Op.namedAt (k : ℕ) : Raft.Op → Bool
  | .readIndex id => id = k
  | _ => true

inductive Trigger
  | op (n : ServerID) (op : Raft.Op)
  | deliver (i : ℕ) (rnd : ℕ)
  | reply (j : ℕ) (now : ℤ)
  | fail (i : ℕ)
deriving DecidableEq

/-- `run t (some k)` is a crash in the middle of what `t` starts: right after its durable
write number `k`. -/
inductive Action
  | create (n : ServerID)
  | crash (n : ServerID)
  | run (t : Trigger) (crashAfter : Option ℕ)
deriving DecidableEq

namespace World

def init : World σ := ⟨fun _ ↦ .down Disk.empty, [], [], []⟩

def packetsOf (n : ServerID) (out : List Effect) : List Packet :=
  out.filterMap fun
    | .rpc target req => some ⟨n, target, req⟩
    | .note _ => none

def eventsOf (n : ServerID) (out : List Effect) : List (ServerID × Event) :=
  out.filterMap fun
    | .rpc _ _ => none
    | .note e => some (n, e)

def setHost (w : World σ) (n : ServerID) (h : Host σ) : World σ :=
  { w with hosts := Function.update w.hosts n h }

def publish (w : World σ) (n : ServerID) (out : List Effect) : World σ :=
  { w with net := w.net ++ packetsOf n out, history := w.history ++ eventsOf n out }

def settle (w : World σ) (n : ServerID) (r : Raft σ) (calls : List ℕ) : World σ :=
  (w.publish n r.outbox).setHost n (.up { r with outbox := [], journal := [] }
    (calls ++ (List.range (packetsOf n r.outbox).length).map (w.net.length + ·)))

def crashAt (w : World σ) (n : ServerID) (d : Disk) (out : List Effect) : World σ :=
  (w.publish n out).setHost n (.down d)

def addReply (w : World σ) (reply : Option Reply) : World σ :=
  { w with replies := w.replies ++ reply.toList }

/-- What a trigger runs: on which node, the object afterwards, the calls that remain, and
the answer it gives. -/
def fire (F : FSM σ) (w : World σ) : Trigger → Option (ServerID × Raft σ × List ℕ × Option Reply)
  | .op n op =>
    match w.hosts n with
    | .down _ => none
    | .up r calls =>
      if op.namedAt w.history.length then
        (r.exec F op).map (fun r ↦ (n, r, calls, none))
      else none
  | .deliver i rnd =>
    match w.net[i]? with
    | none => none
    | some p =>
      match w.hosts p.dst with
      | .down _ => none
      | .up r calls =>
        let (r, resp) := r.handle F rnd p.req
        some (p.dst, r, calls, some ⟨i, resp, w.history.length⟩)
  | .reply j now =>
    match w.replies[j]? with
    | none => none
    | some a =>
      match w.net[a.call]? with
      | none => none
      | some p =>
        match w.hosts p.src with
        | .down _ => none
        | .up r calls =>
          if a.call ∈ calls then
            (r.receive p.dst now p.req a.resp).map (fun r ↦ (p.src, r, calls.erase a.call, none))
          else none
  | .fail i =>
    match w.net[i]? with
    | none => none
    | some p =>
      match w.hosts p.src with
      | .down _ => none
      | .up r calls =>
        if i ∈ calls then
          (r.callFailed p.dst p.req).map (fun r ↦ (p.src, r, calls.erase i, none))
        else none

def step (cl : Cluster) (F : FSM σ) (w : World σ) : Action → Option (World σ)
  | .create n =>
    match w.hosts n, cl.config n with
    | .down d, some c => (Raft.newRaft F c n d).map (fun r ↦ w.setHost n (.up r []))
    | _, _ => none
  | .crash n =>
    match w.hosts n with
    | .down _ => none
    | .up r _ => some (w.setHost n (.down r.disk))
  | .run t none =>
    (w.fire F t).map (fun (n, r, calls, reply) ↦ (w.settle n r calls).addReply reply)
  | .run t (some k) =>
    (w.fire F t).bind (fun (n, r, _, _) ↦
      r.journal[k]?.map (fun (d, out) ↦ w.crashAt n d out))

def steps (cl : Cluster) (F : FSM σ) : World σ → List Action → Option (World σ) :=
  Script.run (step cl F)

/-- One step of a run in which every step meets `P`. -/
def Next (cl : Cluster) (F : FSM σ) (P : World σ → Action → Prop) (w w' : World σ) : Prop :=
  ∃ a, P w a ∧ w.step cl F a = some w'

def Steps (cl : Cluster) (F : FSM σ) (P : World σ → Action → Prop) : World σ → World σ → Prop :=
  Relation.ReflTransGen (Next cl F P)

def Reach (cl : Cluster) (F : FSM σ) (P : World σ → Action → Prop) (w : World σ) : Prop :=
  Steps cl F P init w

end World

end RaftConsensus
