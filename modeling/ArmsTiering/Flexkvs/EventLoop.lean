import ArmsTiering.Core.Transition
import ArmsTiering.Flexkvs.Serving

/-!
# The event loop of a connection

`conn_events` with its receive, process and send loops, one socket call or one
request a step.  Which events arrive, what the socket returns and what the store
holds when a request is processed are chosen by the actions.  Beside the fields of
the connection the state records the bytes received and sent, and the requests and
responses they are made of.
-/

namespace ArmsTiering.Flexkvs

/-- Where `conn_events` is; `waiting` is outside it. -/
inductive EventPc
  | waiting
  | receiving
  | processing
  | sending
  | closed
  | assertFailed
  deriving DecidableEq

/-- What `ss_read` or `ss_write` returns. -/
inductive SocketResult (α : Type)
  | done (result : α)
  | zero
  | again
  | error

/-- `struct connection`. -/
structure EventConnection where
  conn : Connection
  rxLen : ℕ
  txOff : ℕ
  epollWr : Bool
  rxBuf : Memory
  txBuf : Memory
  pc : EventPc
  received : List UInt8
  processed : List (List UInt8)
  responses : List (List UInt8)
  sent : List UInt8

/-- `events` of `conn_events`. -/
structure Events where
  input : Bool
  output : Bool
  error : Bool
  deriving DecidableEq

inductive EventAction
  | event (events : Events)
  | read (result : SocketResult (List UInt8))
  | process (s : Store) (ia : ItemAllocator) (mapped : Bool)
  | write (result : SocketResult ℕ)
  | finish

/-- The bytes of a response before `cas`. -/
def responseHead (r : Response) : List UInt8 :=
  [0x81, UInt8.ofNat r.opcode, 0, 0, UInt8.ofNat r.extlen, 0] ++ (leBytes 2 r.status).reverse ++
    (leBytes 4 r.bodylen).reverse ++ (leBytes 4 r.opaqueField).reverse

/-- The response is built at `address`; the eight bytes of `cas` keep what they hold. -/
def placeResponse (tx : Memory) (address : ℕ) (r : Response) : Memory :=
  (tx.write address (responseHead r)).write (address + sizeofResponse) r.body

namespace EventConnection

def iscomp (c : EventConnection) : Bool := connReqIscomp c.rxBuf c.rxLen c.conn.rxOff

/-- A connection that was just accepted. -/
def accepted (rxBuf txBuf : Memory) : EventConnection where
  conn := ⟨0, 0, 0, false⟩
  rxLen := 0
  txOff := 0
  epollWr := false
  rxBuf := rxBuf
  txBuf := txBuf
  pc := .waiting
  received := []
  processed := []
  responses := []
  sent := []

/-- `epoll_wait` reports what is registered, errors and hangups. -/
def Registered (c : EventConnection) (events : Events) : Prop :=
  (events.input → c.epollWr = false) ∧ (events.output → c.epollWr = true) ∧
    (events.input ∨ events.output ∨ events.error)

instance (c : EventConnection) (events : Events) : Decidable (c.Registered events) :=
  inferInstanceAs (Decidable (_ ∧ _ ∧ _))

/-- `conn_events` up to its first socket call. -/
def beginEvents (c : EventConnection) (events : Events) : EventConnection :=
  if events.error then { c with pc := .closed }
  else if events.input then { c with pc := .receiving }
  else if events.output then
    if c.txOff < c.conn.txLen then { c with pc := .sending } else { c with pc := .assertFailed }
  else { c with pc := .processing }

/-- `conn_upepoll`. -/
def upepoll (c : EventConnection) (wr : Bool) : EventConnection := { c with epollWr := wr }

/-- One round of the loop in `conn_recv`. -/
def recvRound (c : EventConnection) : SocketResult (List UInt8) → Option EventConnection
  | .done bytes =>
      if 1 ≤ bytes.length ∧ bytes.length ≤ maxMsgsize - c.rxLen then
        let c := { c with
          rxBuf := c.rxBuf.write c.rxLen bytes
          rxLen := (c.rxLen + bytes.length) % 2 ^ 16
          received := c.received ++ bytes }
        some { c with pc := if c.iscomp then .processing else .receiving }
      else none
  | .again => some { c.upepoll false with pc := .waiting }
  | .zero | .error => some { c with pc := .closed }

/-- One round of the loop in `conn_send`. -/
def sendRound (c : EventConnection) : SocketResult ℕ → Option EventConnection
  | .done n =>
      if 1 ≤ n ∧ n ≤ c.conn.txLen - c.txOff then
        let c := { c with
          txOff := (c.txOff + n) % 2 ^ 16
          sent := c.sent ++ c.txBuf.read c.txOff n }
        if c.txOff < c.conn.txLen then some c
        else some { c with conn := { c.conn with txLen := 0 }, txOff := 0, pc := .processing }
      else none
  | .again => some { c.upepoll true with pc := .waiting }
  | .zero | .error => some { c with pc := .closed }

section

variable (settings : Settings) (hash : List UInt8 → UInt32)

/-- One round of the loop over the requests, up to its `conn_send`. -/
def processRound (c : EventConnection) (s : Store) (ia : ItemAllocator) (mapped : Bool) :
    Option EventConnection :=
  (connReqProcess settings hash s ia c.rxBuf c.conn mapped).map fun (_, _, conn, outcome) =>
    match outcome with
    | .closed => { c with conn := conn, pc := .closed }
    | .waiting =>
        { c with conn := conn, pc := if conn.txLen ≠ 0 then .sending else .processing }
    | .answered r =>
        let txBuf := placeResponse c.txBuf c.conn.txLen r
        { c with
          conn := conn
          txBuf := txBuf
          processed := c.processed ++ [c.rxBuf.read c.conn.rxOff
            (sizeofRequest + (requestHeader c.rxBuf c.conn.rxOff).bodylen)]
          responses := c.responses ++ [txBuf.read c.conn.txLen (sizeofResponse + r.body.length)]
          pc := if conn.txLen ≠ 0 then .sending else .processing }

end

/-- The end of `conn_events`: the rest of the receive buffer is moved up. -/
def moveUp (c : EventConnection) : EventConnection :=
  if c.conn.rxOff ≠ 0 then
    { c with
      rxBuf := if c.conn.rxOff = c.rxLen then c.rxBuf
        else c.rxBuf.write 0 (c.rxBuf.read c.conn.rxOff (c.rxLen - c.conn.rxOff))
      rxLen := if c.conn.rxOff = c.rxLen then 0
        else (c.rxLen + 2 ^ 16 - c.conn.rxOff) % 2 ^ 16
      conn := { c.conn with rxOff := 0 } }
  else c

/-- Undefined where the action is not the connection's next one, or where
processing the request brings the server down. -/
def step (settings : Settings) (hash : List UInt8 → UInt32) (c : EventConnection) :
    EventAction → Option EventConnection
  | .event events =>
      if c.pc = .waiting ∧ c.Registered events then some (c.beginEvents events) else none
  | .read result => if c.pc = .receiving then c.recvRound result else none
  | .process s ia mapped =>
      if c.pc = .processing ∧ c.iscomp then c.processRound settings hash s ia mapped else none
  | .write result => if c.pc = .sending then c.sendRound result else none
  | .finish =>
      if c.pc = .processing ∧ ¬c.iscomp then
        some { c.moveUp.upepoll false with pc := .waiting }
      else none

/-- Outside `conn_events` the connection waits for what it has registered: to send
the rest of a response, or to receive the rest of a request. -/
def Settled (c : EventConnection) : Prop :=
  (c.epollWr = true ∧ c.txOff < c.conn.txLen) ∨
    (c.epollWr = false ∧ c.conn.txLen = 0 ∧ c.txOff = 0 ∧ c.iscomp = false)

/-- The event loop strands no work. -/
def NeverStranded (c : EventConnection) : Prop :=
  (c.pc = .waiting → c.Settled) ∧ c.pc ≠ .assertFailed

/-- The bytes of the response to a GET that found `it`. -/
def getResponseSize (m : Memory) (it : ℕ) : ℕ :=
  sizeofResponse + 4 + if it = 0 then 0 else itemVallen m it

/-- The response to the request that is next fits into the transmit buffer and its
length into 16 bits; those to SET and DELETE always do. -/
def ResponseFits (hash : List UInt8 → UInt32) (c : EventConnection) (s : Store) : Prop :=
  let header := requestHeader c.rxBuf c.conn.rxOff
  let key := (Command.get.key c.conn.rxOff header).read c.rxBuf
  let looked := if c.conn.reqDone then some (s, c.conn.it) else hashtGet s key (hash key).toNat
  header.command = some .get → ∀ found ∈ looked,
    getResponseSize found.1.mem found.2 ≤ maxMsgsize ∧
      getResponseSize found.1.mem found.2 < 2 ^ 16

def Fits (hash : List UInt8 → UInt32) (c : EventConnection) : EventAction → Prop
  | .process s _ _ => c.ResponseFits hash s
  | _ => True

end EventConnection

/-! ## One request -/

section

variable {settings : Settings} {hash : List UInt8 → UInt32}

/-- What a processed request does to the connection. -/
def Served (c c' : Connection) (header : RequestHeader) (outcome : ProcessOutcome) : Prop :=
  (outcome = .closed ∧ c' = c) ∨ ∃ r, outcome = .answered r ∧
    c'.rxOff = (c.rxOff + (sizeofRequest + header.bodylen) % 2 ^ 32) % 2 ^ 16 ∧
    c'.txLen = sizeofResponse + r.body.length ∧ sizeofResponse + r.body.length < 2 ^ 16

theorem Served.of_advance {c : Connection} (htx : c.txLen = 0) (header : RequestHeader)
    (r : Response) (hsize : sizeofResponse + r.body.length < 2 ^ 16) (it : ℕ) (reqDone : Bool) :
    Served c ({ c with it := it, reqDone := reqDone }.advance header
      (sizeofResponse + r.body.length)) header (.answered r) := by
  refine .inr ⟨r, rfl, rfl, ?_, hsize⟩
  show (c.txLen + (sizeofResponse + r.body.length)) % 2 ^ 16 = _
  rw [htx, Nat.zero_add, Nat.mod_eq_of_lt hsize]

theorem Served.of_head {c : Connection} (htx : c.txLen = 0) (header : RequestHeader)
    (r : Response) (hbody : r.body = []) (it : ℕ) (reqDone : Bool) :
    Served c ({ c with it := it, reqDone := reqDone }.advance header sizeofResponse) header
      (.answered r) := by
  have hlength : r.body.length = 0 := by rw [hbody, List.length_nil]
  have hserved := Served.of_advance htx header r (by rw [hlength]; decide) it reqDone
  rwa [hlength, Nat.add_zero] at hserved

theorem getResponseLength_eq {m : Memory} {it : ℕ}
    (hsize : EventConnection.getResponseSize m it < 2 ^ 16) (header : RequestHeader) :
    getResponseLength m it = EventConnection.getResponseSize m it ∧
      sizeofResponse + (getResponse m it header).body.length =
        EventConnection.getResponseSize m it := by
  unfold EventConnection.getResponseSize at hsize ⊢
  by_cases hit : it = 0
  · rw [getResponseLength, getResponse, if_pos hit, if_pos hit, if_pos hit]
    exact ⟨rfl, rfl⟩
  · rw [if_neg hit] at hsize
    rw [getResponseLength, getResponse, if_neg hit, if_neg hit, if_neg hit]
    refine ⟨Nat.mod_eq_of_lt (hsize.trans (by decide)), ?_⟩
    rw [List.length_append, Memory.length_read]
    exact (Nat.add_assoc _ _ _).symm

theorem processGet_served {s s' : Store} {c c' : Connection} {header : RequestHeader}
    {key : List UInt8} {outcome : ProcessOutcome} (htx : c.txLen = 0)
    (hfits : ∀ found ∈ (if c.reqDone then some (s, c.it) else hashtGet s key (hash key).toNat),
      EventConnection.getResponseSize found.1.mem found.2 ≤ maxMsgsize ∧
        EventConnection.getResponseSize found.1.mem found.2 < 2 ^ 16)
    (hprocess : processGet settings hash s c header key = some (s', c', outcome)) :
    Served c c' header outcome := by
  obtain ⟨⟨s₁, it⟩, hlooked, hrest⟩ := Option.bind_eq_some_iff.mp hprocess
  obtain ⟨hmax, hsize⟩ := hfits (s₁, it) hlooked
  obtain ⟨hlength, hbody⟩ := getResponseLength_eq hsize header
  dsimp only at hrest hmax hlength hbody
  rw [if_neg (by rw [htx, hlength]; omega)] at hrest
  obtain ⟨s₂, -, heq⟩ := Option.map_eq_some_iff.mp hrest
  obtain ⟨-, heq⟩ := Prod.mk.inj heq
  obtain ⟨rfl, rfl⟩ := Prod.mk.inj heq
  rw [hlength, ← hbody]
  exact Served.of_advance htx header _ (by rwa [hbody]) it true

theorem processSet_served {s s' : Store} {ia ia' : ItemAllocator} {c c' : Connection}
    {header : RequestHeader} {key value : List UInt8} {mapped : Bool} {outcome : ProcessOutcome}
    (htx : c.txLen = 0)
    (hprocess : processSet settings hash s ia c header key value mapped =
      some (s', ia', c', outcome)) :
    Served c c' header outcome := by
  obtain ⟨⟨s₁, ia₁, it⟩, -, heq⟩ := Option.map_eq_some_iff.mp hprocess
  dsimp only at heq
  rw [if_neg (by rw [htx]; decide)] at heq
  obtain ⟨-, heq⟩ := Prod.mk.inj heq
  obtain ⟨-, heq⟩ := Prod.mk.inj heq
  obtain ⟨rfl, rfl⟩ := Prod.mk.inj heq
  exact Served.of_head htx header _ rfl it true

theorem processDelete_served {s s' : Store} {c c' : Connection} {header : RequestHeader}
    {key : List UInt8} {outcome : ProcessOutcome} (htx : c.txLen = 0)
    (hprocess : processDelete settings hash s c header key = some (s', c', outcome)) :
    Served c c' header outcome := by
  obtain ⟨⟨s₁, it, success⟩, -, heq⟩ := Option.map_eq_some_iff.mp hprocess
  dsimp only at heq
  rw [if_neg (by rw [htx]; decide)] at heq
  obtain ⟨-, heq⟩ := Prod.mk.inj heq
  obtain ⟨rfl, rfl⟩ := Prod.mk.inj heq
  exact Served.of_head htx header _ rfl it true

end

namespace EventConnection

variable {settings : Settings} {hash : List UInt8 → UInt32} {c c' : EventConnection}

theorem connReqProcess_served {s s' : Store} {ia ia' : ItemAllocator} {conn : Connection}
    {mapped : Bool} {outcome : ProcessOutcome} (htx : c.conn.txLen = 0)
    (hfits : c.ResponseFits hash s)
    (hprocess : connReqProcess settings hash s ia c.rxBuf c.conn mapped =
      some (s', ia', conn, outcome)) :
    Served c.conn conn (requestHeader c.rxBuf c.conn.rxOff) outcome := by
  unfold connReqProcess at hprocess
  dsimp only at hprocess
  cases hcommand : (requestHeader c.rxBuf c.conn.rxOff).command with
  | none =>
      rw [hcommand] at hprocess
      obtain ⟨s₁, -, heq⟩ := Option.map_eq_some_iff.mp hprocess
      obtain ⟨-, heq⟩ := Prod.mk.inj heq
      obtain ⟨-, heq⟩ := Prod.mk.inj heq
      obtain ⟨rfl, rfl⟩ := Prod.mk.inj heq
      exact .inl ⟨rfl, rfl⟩
  | some command =>
      rw [hcommand] at hprocess
      cases command with
      | get =>
          obtain ⟨⟨s₁, conn₁, outcome₁⟩, hget, heq⟩ := Option.map_eq_some_iff.mp hprocess
          obtain ⟨-, heq⟩ := Prod.mk.inj heq
          obtain ⟨-, heq⟩ := Prod.mk.inj heq
          obtain ⟨rfl, rfl⟩ := Prod.mk.inj heq
          exact processGet_served htx (hfits hcommand) hget
      | set => exact processSet_served htx hprocess
      | delete =>
          obtain ⟨⟨s₁, conn₁, outcome₁⟩, hdelete, heq⟩ := Option.map_eq_some_iff.mp hprocess
          obtain ⟨-, heq⟩ := Prod.mk.inj heq
          obtain ⟨-, heq⟩ := Prod.mk.inj heq
          obtain ⟨rfl, rfl⟩ := Prod.mk.inj heq
          exact processDelete_served htx hdelete

/-! ## The invariant -/

/-- What holds where `conn_events` is.  Only while a response is unsent may there be
requests before `rx_off` that have been processed. -/
def AtPc (c : EventConnection) : Prop :=
  match c.pc with
  | .waiting => c.Settled ∧ c.conn.txLen < 2 ^ 16 ∧ (c.epollWr = false → c.conn.rxOff = 0)
  | .receiving => c.conn.rxOff = 0 ∧ c.epollWr = false ∧ c.conn.txLen = 0 ∧ c.txOff = 0 ∧
      c.iscomp = false
  | .processing => c.conn.txLen = 0 ∧ c.txOff = 0
  | .sending => c.txOff < c.conn.txLen ∧ c.conn.txLen < 2 ^ 16
  | .closed => True
  | .assertFailed => False

structure Inv (c : EventConnection) : Prop where
  rxLen_lt : c.rxLen < 2 ^ 16
  rxOff_le : c.conn.rxOff ≤ c.rxLen
  atPc : c.AtPc

theorem Inv.neverStranded (hinv : Inv c) : NeverStranded c := by
  have hpc := hinv.atPc
  unfold AtPc at hpc
  constructor
  · intro hwaiting
    rw [hwaiting] at hpc
    exact hpc.1
  · intro hfailed
    rw [hfailed] at hpc
    exact hpc

/-- An empty receive buffer holds no request. -/
theorem connReqIscomp_empty (rx : Memory) (off : ℕ) : connReqIscomp rx off off = false := by
  unfold connReqIscomp
  dsimp only
  rw [Nat.add_sub_cancel_left, Nat.mod_self, if_pos (by decide)]

theorem inv_accepted (rxBuf txBuf : Memory) : Inv (accepted rxBuf txBuf) where
  rxLen_lt := by
    show 0 < 2 ^ 16
    decide
  rxOff_le := le_rfl
  atPc := ⟨.inr ⟨rfl, rfl, rfl, connReqIscomp_empty rxBuf 0⟩, by
    show 0 < 2 ^ 16
    decide, fun _ => rfl⟩

/-- A complete request lies below `rx_len`, so the counters step over it exactly. -/
theorem Inv.request_fits (hinv : Inv c) (hcomp : c.iscomp) :
    c.conn.rxOff + (sizeofRequest + (requestHeader c.rxBuf c.conn.rxOff).bodylen) ≤ c.rxLen := by
  have hlt := hinv.rxLen_lt
  have hle := hinv.rxOff_le
  have havail : (c.rxLen + 2 ^ 16 - c.conn.rxOff) % 2 ^ 16 = c.rxLen - c.conn.rxOff := by
    rw [show c.rxLen + 2 ^ 16 - c.conn.rxOff = (c.rxLen - c.conn.rxOff) + 2 ^ 16 by omega,
      Nat.add_mod_right, Nat.mod_eq_of_lt (by omega)]
  unfold iscomp connReqIscomp at hcomp
  dsimp only at hcomp
  rw [havail] at hcomp
  split at hcomp
  · cases hcomp
  · split at hcomp
    · cases hcomp
    · omega

theorem Inv.event (hinv : Inv c) {events : Events} (hwaiting : c.pc = .waiting)
    (hregistered : c.Registered events) : Inv (c.beginEvents events) := by
  have hpc := hinv.atPc
  unfold AtPc at hpc
  rw [hwaiting] at hpc
  obtain ⟨hsettled, htx, hrx⟩ := hpc
  obtain ⟨hinput, houtput, hany⟩ := hregistered
  unfold beginEvents
  split
  · exact ⟨hinv.rxLen_lt, hinv.rxOff_le, trivial⟩
  · split
    · rename_i hin
      have hwr := hinput hin
      rcases hsettled with ⟨hwr', -⟩ | ⟨-, htx, htxOff, hcomp⟩
      · rw [hwr] at hwr'
        cases hwr'
      · exact ⟨hinv.rxLen_lt, hinv.rxOff_le, hrx hwr, hwr, htx, htxOff, hcomp⟩
    · split
      · rename_i hout
        have hwr := houtput hout
        rcases hsettled with ⟨-, hunsent⟩ | ⟨hwr', -⟩
        · rw [if_pos hunsent]
          exact ⟨hinv.rxLen_lt, hinv.rxOff_le, hunsent, htx⟩
        · rw [hwr] at hwr'
          cases hwr'
      · rename_i herror hin hout
        exact absurd hany (by simp [herror, hin, hout])

theorem Inv.read (hinv : Inv c) {result : SocketResult (List UInt8)}
    (hreceiving : c.pc = .receiving) (hround : c.recvRound result = some c') : Inv c' := by
  have hpc := hinv.atPc
  unfold AtPc at hpc
  rw [hreceiving] at hpc
  obtain ⟨hrx, hwr, htx, htxOff, hcomp⟩ := hpc
  cases result with
  | done bytes =>
      unfold recvRound at hround
      dsimp only at hround
      split at hround
      · obtain rfl := Option.some.inj hround
        have hlt : (c.rxLen + bytes.length) % 2 ^ 16 < 2 ^ 16 := Nat.mod_lt _ (by decide)
        refine ⟨hlt, by rw [hrx]; exact Nat.zero_le _, ?_⟩
        unfold AtPc
        dsimp only
        by_cases hcomp' : iscomp { c with
            rxBuf := c.rxBuf.write c.rxLen bytes
            rxLen := (c.rxLen + bytes.length) % 2 ^ 16
            received := c.received ++ bytes } = true
        · rw [if_pos hcomp']
          exact ⟨htx, htxOff⟩
        · rw [if_neg hcomp']
          exact ⟨hrx, hwr, htx, htxOff, Bool.eq_false_iff.mpr hcomp'⟩
      · cases hround
  | again =>
      obtain rfl := Option.some.inj hround
      refine ⟨hinv.rxLen_lt, hinv.rxOff_le, .inr ⟨rfl, htx, htxOff, hcomp⟩, ?_, fun _ => hrx⟩
      show c.conn.txLen < 2 ^ 16
      rw [htx]
      decide
  | zero =>
      obtain rfl := Option.some.inj hround
      exact ⟨hinv.rxLen_lt, hinv.rxOff_le, trivial⟩
  | error =>
      obtain rfl := Option.some.inj hround
      exact ⟨hinv.rxLen_lt, hinv.rxOff_le, trivial⟩

theorem Inv.process (hinv : Inv c) {s : Store} {ia : ItemAllocator} {mapped : Bool}
    (hprocessing : c.pc = .processing) (hcomp : c.iscomp) (hfits : c.ResponseFits hash s)
    (hround : c.processRound settings hash s ia mapped = some c') : Inv c' := by
  have hpc := hinv.atPc
  unfold AtPc at hpc
  rw [hprocessing] at hpc
  obtain ⟨htx, htxOff⟩ := hpc
  obtain ⟨⟨s', ia', conn, outcome⟩, hprocess, rfl⟩ := Option.map_eq_some_iff.mp hround
  have hrequest := hinv.request_fits hcomp
  have hlt := hinv.rxLen_lt
  rcases connReqProcess_served htx hfits hprocess with
      ⟨rfl, rfl⟩ | ⟨r, rfl, hrxOff, htxLen, hsize⟩
  · exact ⟨hlt, hinv.rxOff_le, trivial⟩
  · have hpos : 0 < sizeofResponse := by decide
    have hrql : (sizeofRequest + (requestHeader c.rxBuf c.conn.rxOff).bodylen) % 2 ^ 32 =
        sizeofRequest + (requestHeader c.rxBuf c.conn.rxOff).bodylen :=
      Nat.mod_eq_of_lt (by omega)
    rw [hrql, Nat.mod_eq_of_lt (by omega)] at hrxOff
    refine ⟨hlt, by rw [hrxOff]; exact hrequest, ?_⟩
    unfold AtPc
    dsimp only
    rw [if_pos (by omega)]
    exact ⟨by rw [htxOff, htxLen]; omega, by rw [htxLen]; exact hsize⟩

theorem Inv.write (hinv : Inv c) {result : SocketResult ℕ} (hsending : c.pc = .sending)
    (hround : c.sendRound result = some c') : Inv c' := by
  have hpc := hinv.atPc
  unfold AtPc at hpc
  rw [hsending] at hpc
  obtain ⟨hunsent, htx⟩ := hpc
  cases result with
  | done n =>
      unfold sendRound at hround
      dsimp only at hround
      split at hround
      · rename_i hn
        split at hround
        · rename_i hmore
          obtain rfl := Option.some.inj hround
          refine ⟨hinv.rxLen_lt, hinv.rxOff_le, ?_⟩
          unfold AtPc
          dsimp only
          rw [hsending]
          exact ⟨hmore, htx⟩
        · obtain rfl := Option.some.inj hround
          exact ⟨hinv.rxLen_lt, hinv.rxOff_le, rfl, rfl⟩
      · cases hround
  | again =>
      obtain rfl := Option.some.inj hround
      exact ⟨hinv.rxLen_lt, hinv.rxOff_le, .inl ⟨rfl, hunsent⟩, htx, nofun⟩
  | zero =>
      obtain rfl := Option.some.inj hround
      exact ⟨hinv.rxLen_lt, hinv.rxOff_le, trivial⟩
  | error =>
      obtain rfl := Option.some.inj hround
      exact ⟨hinv.rxLen_lt, hinv.rxOff_le, trivial⟩

/-- A complete request is complete wherever its bytes are. -/
theorem connReqIscomp_congr {rx rx' : Memory} {len off len' off' n : ℕ} (hlen : len = off + n)
    (hlen' : len' = off' + n) (hn : n < 2 ^ 16)
    (hbytes : ∀ i k, i + k ≤ n → rx'.read (off' + i) k = rx.read (off + i) k) :
    connReqIscomp rx' len' off' = connReqIscomp rx len off := by
  have havail : ∀ base, (base + n + 2 ^ 16 - base) % 2 ^ 16 = n := by
    intro base
    rw [show base + n + 2 ^ 16 - base = n + 2 ^ 16 by omega, Nat.add_mod_right,
      Nat.mod_eq_of_lt hn]
  unfold connReqIscomp
  dsimp only
  rw [hlen, hlen', havail, havail]
  by_cases hshort : n < sizeofRequest
  · rw [if_pos hshort, if_pos hshort]
  · have hbodylen : (requestHeader rx' off').bodylen = (requestHeader rx off).bodylen := by
      show ntoh rx' (off' + 8) 4 = ntoh rx (off + 8) 4
      have hsize : sizeofRequest = 24 := rfl
      rw [ntoh, ntoh, hbytes 8 4 (by omega)]
    rw [if_neg hshort, if_neg hshort, hbodylen]

/-- The bytes that are moved up are found at the start of the buffer. -/
theorem read_movedUp (rx : Memory) {off n i k : ℕ} (hin : i + k ≤ n) :
    (rx.write 0 (rx.read off n)).read (0 + i) k = rx.read (off + i) k := by
  refine List.ext_getElem (by rw [Memory.length_read, Memory.length_read]) fun j hj hj' => ?_
  rw [Memory.length_read] at hj
  have hlt : i + j < (rx.read off n).length := by
    rw [Memory.length_read]
    omega
  have hwritten : rx.write 0 (rx.read off n) (0 + (i + j)) = (rx.read off n)[i + j] :=
    Memory.write_offset hlt
  rw [Memory.getElem_read, Memory.getElem_read, Nat.add_assoc, hwritten, Memory.getElem_read,
    Nat.add_assoc]

/-- What the end of `conn_events` leaves in the receive buffer. -/
theorem Inv.moveUp (hinv : Inv c) :
    c.moveUp.conn.rxOff = 0 ∧ c.moveUp.rxLen = c.rxLen - c.conn.rxOff ∧
      ∀ i k, i + k ≤ c.rxLen - c.conn.rxOff →
        c.moveUp.rxBuf.read (0 + i) k = c.rxBuf.read (c.conn.rxOff + i) k := by
  have hlt := hinv.rxLen_lt
  have hle := hinv.rxOff_le
  unfold EventConnection.moveUp
  by_cases hzero : c.conn.rxOff = 0
  · rw [if_neg (not_not.mpr hzero), hzero]
    exact ⟨rfl, rfl, fun _ _ _ => rfl⟩
  · rw [if_pos hzero]
    dsimp only
    by_cases hall : c.conn.rxOff = c.rxLen
    · rw [if_pos hall, if_pos hall, hall, Nat.sub_self]
      refine ⟨rfl, rfl, fun i k hik => ?_⟩
      obtain ⟨-, rfl⟩ : i = 0 ∧ k = 0 := by omega
      rfl
    · rw [if_neg hall, if_neg hall]
      refine ⟨rfl, ?_, fun i k hik => read_movedUp c.rxBuf hik⟩
      rw [show c.rxLen + 2 ^ 16 - c.conn.rxOff = (c.rxLen - c.conn.rxOff) + 2 ^ 16 by omega,
        Nat.add_mod_right, Nat.mod_eq_of_lt (by omega)]

theorem moveUp_tx (c : EventConnection) :
    c.moveUp.conn.txLen = c.conn.txLen ∧ c.moveUp.txOff = c.txOff := by
  unfold EventConnection.moveUp
  split <;> exact ⟨rfl, rfl⟩

theorem Inv.finish (hinv : Inv c) (hprocessing : c.pc = .processing) (hcomp : ¬c.iscomp) :
    Inv { c.moveUp.upepoll false with pc := .waiting } := by
  have hpc := hinv.atPc
  unfold AtPc at hpc
  rw [hprocessing] at hpc
  obtain ⟨htx, htxOff⟩ := hpc
  have hlt := hinv.rxLen_lt
  obtain ⟨hrxOff, hrxLen, hbytes⟩ := hinv.moveUp
  obtain ⟨htx', htxOff'⟩ := moveUp_tx c
  have hcomp' : connReqIscomp c.moveUp.rxBuf c.moveUp.rxLen c.moveUp.conn.rxOff = false := by
    rw [connReqIscomp_congr (n := c.rxLen - c.conn.rxOff)
      (show c.rxLen = c.conn.rxOff + (c.rxLen - c.conn.rxOff) by have := hinv.rxOff_le; omega)
      (by rw [hrxLen, hrxOff, Nat.zero_add]) (by omega) (by rw [hrxOff]; exact hbytes)]
    exact Bool.eq_false_iff.mpr hcomp
  have hrxLen' : c.moveUp.rxLen < 2 ^ 16 := by
    rw [hrxLen]
    omega
  have htxLen' : c.moveUp.conn.txLen < 2 ^ 16 := by
    rw [htx', htx]
    decide
  exact ⟨hrxLen', hrxOff.trans_le (Nat.zero_le _),
    .inr ⟨rfl, htx'.trans htx, htxOff'.trans htxOff, hcomp'⟩, htxLen', fun _ => hrxOff⟩

/-- Step lemma: every step whose response fits keeps the invariant. -/
theorem Inv.step (hinv : Inv c) {action : EventAction} (hfits : c.Fits hash action)
    (hstep : c.step settings hash action = some c') : Inv c' := by
  cases action with
  | event events =>
      obtain ⟨⟨hwaiting, hregistered⟩, heq⟩ := Option.ite_none_right_eq_some.mp hstep
      obtain rfl := Option.some.inj heq
      exact hinv.event hwaiting hregistered
  | read result =>
      obtain ⟨hreceiving, hround⟩ := Option.ite_none_right_eq_some.mp hstep
      exact hinv.read hreceiving hround
  | process s ia mapped =>
      obtain ⟨⟨hprocessing, hcomp⟩, hround⟩ := Option.ite_none_right_eq_some.mp hstep
      exact hinv.process hprocessing hcomp hfits hround
  | write result =>
      obtain ⟨hsending, hround⟩ := Option.ite_none_right_eq_some.mp hstep
      exact hinv.write hsending hround
  | finish =>
      obtain ⟨⟨hprocessing, hcomp⟩, heq⟩ := Option.ite_none_right_eq_some.mp hstep
      obtain rfl := Option.some.inj heq
      exact hinv.finish hprocessing hcomp

/-- Run lemma: in every run whose responses fit no work is stranded. -/
theorem neverStranded_along (settings : Settings) (hash : List UInt8 → UInt32)
    (rxBuf txBuf : Memory) (actions : List EventAction)
    (hmeets : Transition.Meets (EventConnection.step settings hash) (Fits hash)
      (accepted rxBuf txBuf) actions) :
    Transition.Along (EventConnection.step settings hash) NeverStranded (accepted rxBuf txBuf)
      actions :=
  Transition.along_of_meets Inv (fun _ => Inv.neverStranded)
    (fun _ _ _ hinv hfits hstep => hinv.step hfits hstep) (inv_accepted rxBuf txBuf) hmeets

instance (hash : List UInt8 → UInt32) (c : EventConnection) (s : Store) :
    Decidable (c.ResponseFits hash s) :=
  inferInstanceAs (Decidable (_ → ∀ found ∈ (if c.conn.reqDone then some (s, c.conn.it)
    else hashtGet s _ (hash _).toNat), getResponseSize found.1.mem found.2 ≤ maxMsgsize ∧
      getResponseSize found.1.mem found.2 < 2 ^ 16))

instance (hash : List UInt8 → UInt32) (c : EventConnection) (action : EventAction) :
    Decidable (c.Fits hash action) :=
  match action with
  | .process s _ _ => inferInstanceAs (Decidable (c.ResponseFits hash s))
  | .event _ | .read _ | .write _ | .finish => isTrue trivial

/-- A GET of a missing key in two reads, and its response in two writes with a blocked
one between them. -/
def blockedGet : List EventAction :=
  [.event ⟨true, false, false⟩, .read (.done ((Serving.requestBytes 0x00 [] [1] []).take 7)), .read .again,
    .event ⟨true, false, false⟩, .read (.done ((Serving.requestBytes 0x00 [] [1] []).drop 7)),
    .process (.initial fun _ => 0) ⟨none, 0⟩ true, .write (.done 5), .write .again,
    .event ⟨false, true, false⟩, .write (.done 23), .finish]

theorem neverStranded_along_blockedGet :
    (Transition.run (EventConnection.step Serving.servingSettings fun _ => 0)
        (accepted (fun _ => 0) fun _ => 0) blockedGet).isSome ∧
      Transition.Along (EventConnection.step Serving.servingSettings fun _ => 0) NeverStranded
        (accepted (fun _ => 0) fun _ => 0) blockedGet :=
  ⟨by decide +kernel,
    neverStranded_along Serving.servingSettings (fun _ => 0) (fun _ => 0) (fun _ => 0) blockedGet
      (by decide +kernel)⟩

end EventConnection

end ArmsTiering.Flexkvs
