import RaftConsensus.Transport.Codec
import RaftConsensus.Scripts

namespace RaftConsensus.Framing

open Transport (Message binaryMagic writeBinaryFrame)

open Function List

/-- What `handleConn` does on its connection. -/
inductive Handler
  | probing
  | binary
  | json
  | returned
deriving DecidableEq

/-- The bytes of the client that reach the server, and the handler there. -/
structure Conn where
  sent : Bytes
  handler : Handler

/-- A request, with the JSON text of its envelope after the brace that opens it. -/
structure Request where
  message : Message
  json : Bytes

def Request.bytes (r : Request) (useBinary : Bool) : Bytes :=
  if useBinary then writeBinaryFrame (r.message.tag, r.message.marshal) else 0x7b :: r.json

/-- Where a call of `sendRequest` is. -/
inductive PC
  | start
  | dialing
  | dialed (c : ℕ)
  | probed (c : ℕ)
  | negotiated (c : ℕ) (useBinary : Bool)
  | ready (c : ℕ)
  | chosen (c : ℕ) (useBinary : Bool)
  | waiting (c : ℕ)
  | returned

/-- The peer of a transport, the connections dialed so far, the calls, and the requests that were
written with their connection and framing. -/
structure State where
  binaryTransport : Bool
  idle : List ℕ
  closed : Bool
  useBinary : Bool
  dials : ℕ
  conns : ℕ → Conn
  pc : ℕ → PC
  requests : List (ℕ × Bool)

/-- A step of a call. `n` counts the bytes that a write gets out before it fails. -/
inductive Act
  | checkout
  | dial (ok : Bool)
  | probe (n : ℕ)
  | echo (ok : Bool)
  | store
  | choose (ok : Bool)
  | write (n : ℕ) (request : Request)
  | finish (ok : Bool)

/-- A step of the call `e`, of the handler of the connection `c`, or of `RemovePeer`. -/
inductive Step
  | call (e : ℕ) (a : Act)
  | serve (c : ℕ) (ok : Bool)
  | removePeer

def maxPeerConns : ℕ := 8

def Conn.send (x : Conn) (b : Bytes) : Conn := { x with sent := x.sent ++ b }

/-- `none` while fewer than four bytes have come. When `ok` is `false` the handler gives up. -/
def Conn.serve (x : Conn) (ok : Bool) : Option Conn :=
  if x.handler ≠ .probing then none
  else if !ok then some { x with handler := .returned }
  else if x.sent.length < 4 then none
  else some { x with handler := if x.sent.take 4 = binaryMagic then .binary else .json }

namespace State

variable (s : State)

def init (binaryTransport : Bool) : State :=
  { binaryTransport := binaryTransport
    idle := []
    closed := false
    useBinary := false
    dials := 0
    conns := fun _ ↦ ⟨[], .probing⟩
    pc := fun _ ↦ .start
    requests := [] }

def goto (e : ℕ) (pc : PC) : State := { s with pc := update s.pc e pc }

def setConn (c : ℕ) (x : Conn) : State := { s with conns := update s.conns c x }

def send (c : ℕ) (b : Bytes) : State := s.setConn c ((s.conns c).send b)

def checkoutConn (e : ℕ) : State :=
  if s.closed then s.goto e .returned
  else match s.idle.getLast? with
    | some c => { s.goto e (.ready c) with idle := s.idle.dropLast }
    | none => s.goto e .dialing

def releaseConn (c : ℕ) : State :=
  if s.closed ∨ maxPeerConns ≤ s.idle.length then s else { s with idle := s.idle ++ [c] }

/-- `none` when the step is not the next one of the call. -/
def act (e : ℕ) : PC → Act → Option State
  | .start, .checkout => some (s.checkoutConn e)
  | .dialing, .dial ok =>
    some (if ok then { s.goto e (.dialed s.dials) with dials := s.dials + 1 }
      else s.goto e .returned)
  | .dialed c, .probe n =>
    some (if s.binaryTransport then
      (s.goto e (if n < 4 then .negotiated c false else .probed c)).send c (binaryMagic.take n)
      else s.goto e (.negotiated c false))
  | .probed c, .echo ok =>
    if ok ∧ (s.conns c).handler ≠ .binary then none else some (s.goto e (.negotiated c ok))
  | .negotiated c useBinary, .store =>
    some ({ s with useBinary := useBinary }.goto e (.ready c))
  | .ready c, .choose ok => some (s.goto e (if ok then .chosen c s.useBinary else .returned))
  | .chosen c useBinary, .write n request =>
    some { (s.goto e (if n < (request.bytes useBinary).length then .returned else .waiting c)).send
        c ((request.bytes useBinary).take n) with
      requests := (c, useBinary) :: s.requests }
  | .waiting c, .finish ok =>
    some (if ok then (s.goto e .returned).releaseConn c else s.goto e .returned)
  | _, _ => none

def step : Step → Option State
  | .call e a => s.act e (s.pc e) a
  | .serve c ok => if c < s.dials then ((s.conns c).serve ok).map (s.setConn c) else none
  | .removePeer => some { s with closed := true, idle := [] }

def run : List Step → Option State := Script.run step s

/-- Every request was written in the framing that its server has entered. -/
def Agrees : Prop :=
  ∀ x ∈ s.requests, ((s.conns x.1).handler = .binary → x.2 = true) ∧
    ((s.conns x.1).handler = .json → x.2 = false)

instance : Decidable s.Agrees := by unfold Agrees; infer_instance

end State

/-- The negotiation of the step, if there is one, ends with the echo of the probe. -/
def Step.Answered : Step → Prop
  | .call _ (.probe n) => 4 ≤ n
  | .call _ (.echo ok) => ok = true
  | _ => True

variable {s s' : State} {e c : ℕ} {p : PC} {x : Conn}

def Binary (s : State) (c : ℕ) : Prop := (s.conns c).handler = .binary ∧ s.useBinary = true

def At (s : State) : PC → Prop
  | .negotiated c useBinary => (s.conns c).handler = .binary ∧ useBinary = true
  | .ready c | .waiting c => Binary s c
  | .chosen c useBinary => Binary s c ∧ useBinary = true
  | _ => True

structure Inv (s : State) : Prop where
  enabled : s.binaryTransport = true
  pc : ∀ e, At s (s.pc e)
  idle : ∀ c ∈ s.idle, Binary s c
  requests : ∀ x ∈ s.requests, Binary s x.1 ∧ x.2 = true

namespace Inv

/-- Connections that are binary stay so. -/
theorem keep {conns : ℕ → Conn} {useBinary : Bool} (h : Inv s)
    (hc : ∀ c, (s.conns c).handler = .binary → (conns c).handler = .binary)
    (hu : s.useBinary = true → useBinary = true) :
    Inv { s with conns := conns, useBinary := useBinary } := by
  have hb {c} (hs : Binary s c) : Binary { s with conns := conns, useBinary := useBinary } c :=
    ⟨hc c hs.1, hu hs.2⟩
  refine ⟨h.enabled, fun e ↦ ?_, fun c hm ↦ hb (h.idle c hm),
    fun x hx ↦ ⟨hb (h.requests x hx).1, (h.requests x hx).2⟩⟩
  have ha := h.pc e
  change At _ (s.pc e)
  generalize s.pc e = p at ha
  cases p with
  | negotiated c b => exact ⟨hc c ha.1, ha.2⟩
  | ready c | waiting c => exact hb ha
  | chosen c b => exact ⟨hb ha.1, ha.2⟩
  | _ => trivial

theorem goto (h : Inv s) (hp : At s p) : Inv (s.goto e p) := by
  refine { h with pc := fun e' ↦ ?_ }
  change At s (update s.pc e p e')
  by_cases he : e' = e
  · rw [he, update_self]
    exact hp
  · rw [update_of_ne he]
    exact h.pc e'

theorem setConn (h : Inv s) (hx : (s.conns c).handler = .binary → x.handler = .binary) :
    Inv (s.setConn c x) := by
  refine h.keep (fun c' hc ↦ ?_) id
  by_cases heq : c' = c
  · rw [heq, update_self]
    exact hx (heq ▸ hc)
  · rw [update_of_ne heq]
    exact hc

theorem checkoutConn (h : Inv s) : Inv (s.checkoutConn e) := by
  unfold State.checkoutConn
  split
  · exact h.goto trivial
  · split
    · rename_i hlast
      have hready : At s (.ready _) := h.idle _ (mem_of_getLast? hlast)
      exact { h.goto hready with idle := fun c' hc ↦ h.idle c' (mem_of_mem_dropLast hc) }
    · exact h.goto trivial

theorem releaseConn (h : Inv s) (hc : Binary s c) : Inv (s.releaseConn c) := by
  unfold State.releaseConn
  split
  · exact h
  · exact { h with idle := forall_mem_append.mpr ⟨h.idle, forall_mem_singleton.mpr hc⟩ }

theorem act {a : Act} (h : Inv s) (ha : (Step.call e a).Answered)
    (hs : s.act e (s.pc e) a = some s') : Inv s' := by
  have hat := h.pc e
  generalize s.pc e = p at hs hat
  unfold State.act at hs
  split at hs
  · cases hs
    exact h.checkoutConn
  · cases hs
    split
    · exact { (h.goto trivial : Inv (s.goto e (.dialed s.dials))) with }
    · exact h.goto trivial
  · cases hs
    rw [h.enabled, if_pos rfl, if_neg (Nat.not_lt.mpr ha)]
    exact (h.goto (p := .probed _) trivial).setConn id
  · obtain ⟨hb, hs⟩ := Option.ite_none_left_eq_some.mp hs
    cases hs
    exact h.goto ⟨not_not.mp fun hne ↦ hb ⟨ha, hne⟩, ha⟩
  · cases hs
    exact (h.keep (fun _ ↦ id) fun _ ↦ hat.2).goto hat
  · cases hs
    refine h.goto ?_
    split
    · exact ⟨hat, hat.2⟩
    · trivial
  · rename_i c useBinary n r
    obtain ⟨hc, rfl⟩ := hat
    cases hs
    have hg : Inv (s.goto e (if n < (r.bytes true).length then .returned else .waiting c)) := by
      refine h.goto ?_
      split
      · trivial
      · exact hc
    have hw := hg.setConn (c := c) (x := (s.conns c).send ((r.bytes true).take n)) id
    refine { hw with requests := forall_mem_cons.mpr ⟨⟨⟨?_, hc.2⟩, rfl⟩, hw.requests⟩ }
    change (update s.conns c _ c).handler = .binary
    rw [update_self]
    exact hc.1
  · cases hs
    split
    · exact (h.goto (p := .returned) trivial).releaseConn hat
    · exact h.goto trivial
  · cases hs

theorem step {st : Step} (h : Inv s) (hst : st.Answered) (hs : s.step st = some s') : Inv s' := by
  cases st with
  | call e a => exact h.act hst hs
  | serve c ok =>
    obtain ⟨-, hs⟩ := Option.ite_none_right_eq_some.mp hs
    obtain ⟨x, hx, rfl⟩ := Option.map_eq_some_iff.mp hs
    refine h.setConn fun hc ↦ ?_
    unfold Conn.serve at hx
    rw [hc] at hx
    cases hx
  | removePeer =>
    cases hs
    exact { h with idle := forall_mem_nil _ }

theorem run {sts : List Step} (h : Inv s) (hsts : ∀ st ∈ sts, st.Answered)
    (hs : s.run sts = some s') : Inv s' :=
  Script.invariant_on (fun st hst _ _ hs h ↦ h.step (hsts st hst) hs) hs h

theorem init : Inv (.init true) := ⟨rfl, fun _ ↦ trivial, forall_mem_nil _, forall_mem_nil _⟩

end Inv

/-- Every request is written in the framing of its server as long as every negotiation is
answered. -/
theorem framing_agrees (sts : List Step) (h : ∀ st ∈ sts, st.Answered) (s : State)
    (hs : (State.init true).run sts = some s) : s.Agrees := by
  intro x hx
  obtain ⟨hc, hbinary⟩ := (Inv.init.run h hs).requests x hx
  refine ⟨fun _ ↦ hbinary, fun hjson ↦ ?_⟩
  rw [hc.1] at hjson
  cases hjson

def request : Request := ⟨.timeoutNowReq [0x42], []⟩

def probes (e : ℕ) : List Step := [.checkout, .dial true, .probe 4].map (.call e)

def answered : List Step := probes 0 ++ [.serve 0 true, .call 0 (.echo true), .call 0 .store]

def sends (n : ℕ) : List Step := [.call 0 (.choose true), .call 0 (.write n request)]

/-- Two calls negotiate and send at the same time. -/
def interleaved : List Step :=
  probes 0 ++ probes 1 ++ [.serve 1 true, .serve 0 true, .call 1 (.echo true), .call 0 (.echo true),
    .call 0 .store, .call 0 (.choose true), .call 1 .store, .call 1 (.choose true),
    .call 1 (.write 12 request), .call 0 (.write 12 request), .call 1 (.finish true)]

theorem framing_agrees_interleaved : ∃ s, (State.init true).run interleaved = some s ∧
    s.requests = [(0, true), (1, true)] ∧ s.Agrees := by
  have hrun : ((State.init true).run interleaved).any
      (fun s ↦ s.requests = [(0, true), (1, true)]) = true := by decide +kernel
  obtain ⟨s, hs, hsent⟩ := (Option.any_eq_true _ _).mp hrun
  exact ⟨s, hs, of_decide_eq_true hsent,
    framing_agrees interleaved (by simp [interleaved, probes, Step.Answered]) s hs⟩

/-- The negotiation on a second connection fails while the first one is checked out, or the echo
comes too late. -/
theorem framing_disagrees :
    (∃ s, (State.init true).run (answered ++
      [.checkout, .dial true, .probe 0, .store].map (.call 1) ++ sends 8) = some s ∧ ¬ s.Agrees) ∧
    ∃ s, (State.init true).run (probes 0 ++ [.call 0 (.echo false), .call 0 .store] ++ sends 8 ++
      [.serve 0 true]) = some s ∧ ¬ s.Agrees :=
  ⟨⟨_, rfl, by decide⟩, _, rfl, by decide⟩

end RaftConsensus.Framing
