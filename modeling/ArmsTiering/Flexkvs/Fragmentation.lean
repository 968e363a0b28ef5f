import ArmsTiering.Flexkvs.EventLoop
import ArmsTiering.Flexkvs.SplitBuffer

/-!
# Fragmentation of the request stream

What `conn_events` makes of a stream of requests, however the socket splits it into
reads and the responses into writes: the requests are processed as they stand in the
stream as long as the 16-bit counters do not wrap.
-/

namespace ArmsTiering.Flexkvs.EventConnection

/-- A request of the stream. -/
def WellFormed (request : List UInt8) : Prop :=
  (Spans.headerOf request).command ≠ none ∧ (Spans.headerOf request).Consistent ∧
    request.length = sizeofRequest + (Spans.headerOf request).bodylen

/-- The bytes received that no request has been made of. -/
def unread (c : EventConnection) : List UInt8 := c.rxBuf.read c.conn.rxOff (c.rxLen - c.conn.rxOff)

/-- The bytes of responses that the socket has not taken. -/
def unsent (c : EventConnection) : List UInt8 := c.txBuf.read c.txOff (c.conn.txLen - c.txOff)

/-- The requests processed are the first of the stream, each once and in order, and
the bytes written are those of their responses; while nothing is left to send, only
a part of a request is left to process. -/
def Decodes (requests : List (List UInt8)) (c : EventConnection) : Prop :=
  ∃ k, k ≤ requests.length ∧ c.processed = requests.take k ∧
    c.received = (requests.take k).flatten ++ c.unread ∧
    c.responses.length = k ∧ c.responses.flatten = c.sent ++ c.unsent ∧
    (c.pc = .waiting → c.epollWr = false → c.unsent = [] ∧
      ∀ request, requests[k]? = some request → c.unread.length < request.length)

/-- The socket delivers the bytes of the stream in order. -/
def Delivers (requests : List (List UInt8)) (c : EventConnection) : EventAction → Prop
  | .read (.done bytes) => c.received ++ bytes <+: requests.flatten
  | _ => True

/-- No read makes `rx_len` wrap, and the responses fit. -/
def CountersFit (hash : List UInt8 → UInt32) (c : EventConnection) : EventAction → Prop
  | .read (.done bytes) => c.rxLen + bytes.length < 2 ^ 16
  | .process s _ _ => c.ResponseFits hash s
  | _ => True

variable {settings : Settings} {hash : List UInt8 → UInt32} {requests : List (List UInt8)}
  {c c' : EventConnection}

theorem CountersFit.fits {action : EventAction} (hcounters : c.CountersFit hash action) :
    c.Fits hash action := by
  cases action with
  | process s ia mapped => exact hcounters
  | event events => trivial
  | read result => trivial
  | write result => trivial
  | finish => trivial

/-- The header of the next request is that of the unread bytes. -/
theorem requestHeader_unread {rx : Memory} {off n : ℕ} (hn : sizeofRequest ≤ n) :
    requestHeader rx off = Spans.headerOf (rx.read off n) := by
  have hsize : sizeofRequest = 24 := rfl
  have hfield : ∀ i k, i + k ≤ sizeofRequest →
      ntoh (fun x => (rx.read off n).getD x 0) (0 + i) k = ntoh rx (off + i) k := by
    intro i k hik
    have hread : Memory.read (fun x => (rx.read off n).getD x 0) (0 + i) k = rx.read (off + i) k := by
      refine List.ext_getElem (by rw [Memory.length_read, Memory.length_read]) fun j hj hj' => ?_
      rw [Memory.length_read] at hj
      have hlt : 0 + i + j < (rx.read off n).length := by
        rw [Memory.length_read]
        omega
      rw [Memory.getElem_read, Memory.getElem_read, List.getD_eq_getElem _ _ hlt,
        Memory.getElem_read]
      congr 1
      omega
    rw [ntoh, ntoh, hread]
  unfold Spans.headerOf requestHeader
  rw [hfield 1 1 (by omega), hfield 2 2 (by omega), hfield 4 1 (by omega), hfield 8 4 (by omega),
    hfield 12 4 (by omega)]
  congr 1
  exact (hfield 0 1 (by omega)).symm

structure StreamInv (requests : List (List UInt8)) (c : EventConnection) : Prop where
  loop : Inv c
  delivered : c.received <+: requests.flatten
  decodes : c.Decodes requests

theorem length_unread : c.unread.length = c.rxLen - c.conn.rxOff := Memory.length_read _ _ _

/-- `conn_req_iscomp` tests whether the unread bytes hold a whole request. -/
theorem Inv.iscomp_iff (hinv : Inv c) : c.iscomp = true ↔ sizeofRequest ≤ c.unread.length ∧
    sizeofRequest + (Spans.headerOf c.unread).bodylen ≤ c.unread.length := by
  have hlt := hinv.rxLen_lt
  have hle := hinv.rxOff_le
  have havail : (c.rxLen + 2 ^ 16 - c.conn.rxOff) % 2 ^ 16 = c.unread.length := by
    rw [length_unread, show c.rxLen + 2 ^ 16 - c.conn.rxOff =
      (c.rxLen - c.conn.rxOff) + 2 ^ 16 by omega, Nat.add_mod_right, Nat.mod_eq_of_lt (by omega)]
  unfold iscomp connReqIscomp
  dsimp only
  rw [havail]
  by_cases hshort : c.unread.length < sizeofRequest
  · rw [if_pos hshort]
    simp [Nat.not_le.mpr hshort]
  · have hheader : requestHeader c.rxBuf c.conn.rxOff = Spans.headerOf c.unread :=
      requestHeader_unread (by rw [← length_unread]; exact Nat.not_lt.mp hshort)
    rw [if_neg hshort, hheader]
    simp [Nat.not_lt.mp hshort]

section

variable (hwf : ∀ request ∈ requests, WellFormed request)

include hwf

/-- Where no whole request is left, the next one has not been received in full. -/
theorem Inv.incomplete (hinv : Inv c) (hdelivered : c.received <+: requests.flatten) {k : ℕ}
    (hreceived : c.received = (requests.take k).flatten ++ c.unread) (hcomp : c.iscomp = false)
    (request : List UInt8) (hget : requests[k]? = some request) :
    c.unread.length < request.length := by
  by_contra hlong
  have hle : request.length ≤ c.unread.length := Nat.not_lt.mp hlong
  have hlength := (hwf request (List.mem_of_getElem? hget)).2.2
  have hshort : sizeofRequest ≤ c.unread.length := by omega
  obtain ⟨request', hget', -, hheader, -⟩ := SplitRun.next_request hdelivered
    (fun request hmem => (hwf request hmem).2.2) hreceived hshort
  obtain rfl := Option.some.inj (hget.symm.trans hget')
  have hwhole : c.iscomp = true := by
    refine hinv.iscomp_iff.mpr ⟨hshort, ?_⟩
    rw [hheader]
    omega
  rw [hcomp] at hwhole
  cases hwhole

end

/-! ## The steps -/

/-- What `conn_events` does next does not change what has been done. -/
theorem Decodes.setPc (hdecodes : Decodes requests c) {pc : EventPc} (hpc : pc ≠ .waiting) :
    Decodes requests { c with pc := pc } := by
  obtain ⟨k, hk, hprocessed, hreceived, hcount, hsent, -⟩ := hdecodes
  exact ⟨k, hk, hprocessed, hreceived, hcount, hsent, fun hwaiting => absurd hwaiting hpc⟩

theorem Decodes.event (hdecodes : Decodes requests c) (events : Events) :
    Decodes requests (c.beginEvents events) := by
  unfold beginEvents
  split
  · exact hdecodes.setPc nofun
  · split
    · exact hdecodes.setPc nofun
    · split
      · split
        · exact hdecodes.setPc nofun
        · exact hdecodes.setPc nofun
      · exact hdecodes.setPc nofun

theorem received_beginEvents (c : EventConnection) (events : Events) :
    (c.beginEvents events).received = c.received := by
  unfold beginEvents
  split
  · rfl
  · split
    · rfl
    · split
      · split
        · rfl
        · rfl
      · rfl

/-- Nothing is left to send. -/
theorem unsent_nil (htx : c.conn.txLen = 0) : c.unsent = [] := by
  unfold unsent
  rw [htx, Nat.zero_sub]
  rfl

/-- A read adds its bytes to those that are unread. -/
theorem read_received (rx : Memory) (n : ℕ) (bytes : List UInt8) :
    (rx.write n bytes).read 0 (n + bytes.length) = rx.read 0 n ++ bytes := by
  have hbelow : Memory.AgreeOn rx (rx.write n bytes) 0 n := Memory.agreeOn_write (.inl le_rfl)
  rw [Memory.read_add, hbelow.read_eq le_rfl (Nat.zero_add n).le, Nat.zero_add,
    Memory.read_write]

theorem StreamInv.read (hinv : StreamInv requests c)
    (hwf : ∀ request ∈ requests, WellFormed request) {result : SocketResult (List UInt8)}
    (hreceiving : c.pc = .receiving) (hdelivers : Delivers requests c (.read result))
    (hcounters : c.CountersFit hash (.read result)) (hround : c.recvRound result = some c') :
    c'.received <+: requests.flatten ∧ Decodes requests c' := by
  have hpc := hinv.loop.atPc
  unfold AtPc at hpc
  rw [hreceiving] at hpc
  obtain ⟨hrx, -, htx, htxOff, hcomp⟩ := hpc
  obtain ⟨k, hk, hprocessed, hreceived, hcount, hsent, -⟩ := hinv.decodes
  cases result with
  | done bytes =>
      obtain ⟨-, hnext⟩ := Option.ite_none_right_eq_some.mp hround
      obtain rfl := Option.some.inj hnext
      refine ⟨hdelivers, k, hk, hprocessed, ?_, hcount, hsent, ?_⟩
      · have hlen : (c.rxLen + bytes.length) % 2 ^ 16 = c.rxLen + bytes.length :=
          Nat.mod_eq_of_lt hcounters
        have hunread : c.unread = c.rxBuf.read 0 c.rxLen := by
          rw [unread, hrx, Nat.sub_zero]
        show c.received ++ bytes = _ ++ (c.rxBuf.write c.rxLen bytes).read c.conn.rxOff
          ((c.rxLen + bytes.length) % 2 ^ 16 - c.conn.rxOff)
        rw [hlen, hrx, Nat.sub_zero, read_received, ← hunread, ← List.append_assoc, ← hreceived]
      · intro hwaiting
        dsimp only at hwaiting
        split at hwaiting
        · cases hwaiting
        · cases hwaiting
  | again =>
      obtain rfl := Option.some.inj hround
      refine ⟨hinv.delivered, k, hk, hprocessed, hreceived, hcount, hsent, fun _ _ =>
        ⟨unsent_nil htx, ?_⟩⟩
      exact hinv.loop.incomplete hwf hinv.delivered hreceived hcomp
  | zero =>
      obtain rfl := Option.some.inj hround
      exact ⟨hinv.delivered, hinv.decodes.setPc nofun⟩
  | error =>
      obtain rfl := Option.some.inj hround
      exact ⟨hinv.delivered, hinv.decodes.setPc nofun⟩

theorem StreamInv.write (hinv : StreamInv requests c) {result : SocketResult ℕ}
    (hsending : c.pc = .sending) (hround : c.sendRound result = some c') :
    c'.received = c.received ∧ Decodes requests c' := by
  have hpc := hinv.loop.atPc
  unfold AtPc at hpc
  rw [hsending] at hpc
  obtain ⟨hunsent, htx⟩ := hpc
  obtain ⟨k, hk, hprocessed, hreceived, hcount, hsent, -⟩ := hinv.decodes
  cases result with
  | done n =>
      obtain ⟨⟨-, hn⟩, hnext⟩ := Option.ite_none_right_eq_some.mp hround
      have hoff : (c.txOff + n) % 2 ^ 16 = c.txOff + n := Nat.mod_eq_of_lt (by omega)
      have hsplit : c.unsent = c.txBuf.read c.txOff n ++
          c.txBuf.read (c.txOff + n) (c.conn.txLen - (c.txOff + n)) := by
        rw [unsent, ← Memory.read_add]
        congr 1
        omega
      rw [hsplit, ← List.append_assoc] at hsent
      dsimp only at hnext
      rw [hoff] at hnext
      split at hnext
      · obtain rfl := Option.some.inj hnext
        refine ⟨rfl, k, hk, hprocessed, hreceived, hcount, hsent, fun hwaiting => ?_⟩
        cases hsending.symm.trans hwaiting
      · rename_i hdone
        obtain rfl := Option.some.inj hnext
        refine ⟨rfl, k, hk, hprocessed, hreceived, hcount, ?_, nofun⟩
        rw [Nat.sub_eq_zero_of_le (Nat.not_lt.mp hdone)] at hsent
        exact hsent
  | again =>
      obtain rfl := Option.some.inj hround
      exact ⟨rfl, k, hk, hprocessed, hreceived, hcount, hsent, fun _ => nofun⟩
  | zero =>
      obtain rfl := Option.some.inj hround
      exact ⟨rfl, hinv.decodes.setPc nofun⟩
  | error =>
      obtain rfl := Option.some.inj hround
      exact ⟨rfl, hinv.decodes.setPc nofun⟩

theorem StreamInv.process (hinv : StreamInv requests c)
    (hwf : ∀ request ∈ requests, WellFormed request) {s : Store} {ia : ItemAllocator}
    {mapped : Bool} (hprocessing : c.pc = .processing) (hcomp : c.iscomp)
    (hfits : c.ResponseFits hash s)
    (hround : c.processRound settings hash s ia mapped = some c') :
    c'.received = c.received ∧ Decodes requests c' := by
  have hpc := hinv.loop.atPc
  unfold AtPc at hpc
  rw [hprocessing] at hpc
  obtain ⟨htx, htxOff⟩ := hpc
  obtain ⟨k, hk, hprocessed, hreceived, hcount, hsent, -⟩ := hinv.decodes
  obtain ⟨⟨s', ia', conn, outcome⟩, hprocess, rfl⟩ := Option.map_eq_some_iff.mp hround
  rcases connReqProcess_served htx hfits hprocess with
      ⟨rfl, rfl⟩ | ⟨r, rfl, hrxOff, htxLen, -⟩
  · exact ⟨rfl, hinv.decodes.setPc nofun⟩
  · obtain ⟨hshort, hle⟩ := hinv.loop.iscomp_iff.mp hcomp
    obtain ⟨request, hget, hmem, hheader, hfront⟩ := SplitRun.next_request hinv.delivered
      (fun request hmem => (hwf request hmem).2.2) hreceived hshort
    have hheader' : requestHeader c.rxBuf c.conn.rxOff = Spans.headerOf request :=
      (requestHeader_unread (by rwa [← length_unread])).trans hheader
    have hlength := (hwf request hmem).2.2
    rw [hheader, ← hlength] at hle
    rw [hheader', ← hlength] at hrxOff
    -- neither counter wraps: the request ends below `rx_len`
    have hlt := hinv.loop.rxLen_lt
    have hoff := hinv.loop.rxOff_le
    have hroom := length_unread (c := c)
    rw [Nat.mod_eq_of_lt (by omega), Nat.mod_eq_of_lt (by omega)] at hrxOff
    have hsplit : c.unread = c.rxBuf.read c.conn.rxOff request.length ++
        c.rxBuf.read (c.conn.rxOff + request.length)
          (c.rxLen - (c.conn.rxOff + request.length)) := by
      rw [unread, ← Memory.read_add]
      congr 1
      omega
    have hrequest : c.rxBuf.read c.conn.rxOff request.length = request := by
      obtain ⟨rest, hrest⟩ := hfront hle
      rw [hsplit] at hrest
      exact (List.append_inj_left hrest (Memory.length_read _ _ _).symm).symm
    have hunread : c.unread = request ++ c.rxBuf.read (c.conn.rxOff + request.length)
        (c.rxLen - (c.conn.rxOff + request.length)) := by
      rw [hsplit, hrequest]
    have htake : requests.take (k + 1) = requests.take k ++ [request] := by
      rw [List.take_add_one, hget]
      rfl
    refine ⟨rfl, k + 1, (List.getElem?_eq_some_iff.mp hget).1, ?_, ?_, ?_, ?_, ?_⟩
    · show c.processed ++ [c.rxBuf.read c.conn.rxOff
        (sizeofRequest + (requestHeader c.rxBuf c.conn.rxOff).bodylen)] = _
      rw [hheader', ← hlength, hrequest, htake, hprocessed]
    · show c.received = _ ++ c.rxBuf.read conn.rxOff (c.rxLen - conn.rxOff)
      rw [hrxOff, htake, List.flatten_append, List.flatten_singleton, List.append_assoc,
        ← hunread]
      exact hreceived
    · show (c.responses ++ [_]).length = k + 1
      rw [List.length_append, List.length_singleton, hcount]
    · show (c.responses ++ [(placeResponse c.txBuf c.conn.txLen r).read c.conn.txLen
          (sizeofResponse + r.body.length)]).flatten =
        c.sent ++ (placeResponse c.txBuf c.conn.txLen r).read c.txOff (conn.txLen - c.txOff)
      rw [List.flatten_append, List.flatten_singleton, hsent, unsent_nil htx, List.append_nil, htx,
        htxOff, htxLen, Nat.sub_zero]
    · intro hwaiting
      dsimp only at hwaiting
      split at hwaiting
      · cases hwaiting
      · cases hwaiting

/-- Moving up the rest of the receive buffer changes only where it is. -/
theorem moveUp_streams (c : EventConnection) :
    c.moveUp.received = c.received ∧ c.moveUp.processed = c.processed ∧
      c.moveUp.responses = c.responses ∧ c.moveUp.sent = c.sent := by
  unfold EventConnection.moveUp
  split
  · exact ⟨rfl, rfl, rfl, rfl⟩
  · exact ⟨rfl, rfl, rfl, rfl⟩

theorem Inv.unread_moveUp (hinv : Inv c) : c.moveUp.unread = c.unread := by
  obtain ⟨hrxOff, hrxLen, hbytes⟩ := hinv.moveUp
  have hread := hbytes 0 (c.rxLen - c.conn.rxOff) (Nat.zero_add _).le
  rw [unread, hrxOff, hrxLen, Nat.sub_zero]
  exact hread

theorem StreamInv.finish (hinv : StreamInv requests c)
    (hwf : ∀ request ∈ requests, WellFormed request) (hprocessing : c.pc = .processing)
    (hcomp : ¬c.iscomp) :
    c.moveUp.received = c.received ∧
      Decodes requests { c.moveUp.upepoll false with pc := .waiting } := by
  have hpc := hinv.loop.atPc
  unfold AtPc at hpc
  rw [hprocessing] at hpc
  obtain ⟨htx, -⟩ := hpc
  obtain ⟨k, hk, hprocessed, hreceived, hcount, hsent, -⟩ := hinv.decodes
  obtain ⟨hreceived', hprocessed', hresponses', hsent'⟩ := moveUp_streams c
  have hunsent : c.moveUp.unsent = [] := unsent_nil ((moveUp_tx c).1.trans htx)
  refine ⟨hreceived', k, hk, hprocessed'.trans hprocessed, ?_, ?_, ?_, fun _ _ => ⟨hunsent, ?_⟩⟩
  · show c.moveUp.received = _ ++ c.moveUp.unread
    rw [hreceived', hinv.loop.unread_moveUp]
    exact hreceived
  · show c.moveUp.responses.length = k
    rw [hresponses', hcount]
  · show c.moveUp.responses.flatten = c.moveUp.sent ++ c.moveUp.unsent
    rw [hresponses', hsent', hunsent, hsent, unsent_nil htx]
  · show ∀ request, requests[k]? = some request → c.moveUp.unread.length < request.length
    rw [hinv.loop.unread_moveUp]
    exact hinv.loop.incomplete hwf hinv.delivered hreceived (Bool.eq_false_iff.mpr hcomp)

/-- Step lemma: as long as the counters do not wrap, every step processes the stream
where the one before it stopped. -/
theorem StreamInv.step (hinv : StreamInv requests c)
    (hwf : ∀ request ∈ requests, WellFormed request) {action : EventAction}
    (hdelivers : Delivers requests c action) (hcounters : c.CountersFit hash action)
    (hstep : c.step settings hash action = some c') : StreamInv requests c' := by
  have hloop := hinv.loop.step hcounters.fits hstep
  cases action with
  | event events =>
      obtain ⟨-, heq⟩ := Option.ite_none_right_eq_some.mp hstep
      obtain rfl := Option.some.inj heq
      refine ⟨hloop, ?_, hinv.decodes.event events⟩
      rw [received_beginEvents]
      exact hinv.delivered
  | read result =>
      obtain ⟨hreceiving, hround⟩ := Option.ite_none_right_eq_some.mp hstep
      obtain ⟨hdelivered, hdecodes⟩ := hinv.read hwf hreceiving hdelivers hcounters hround
      exact ⟨hloop, hdelivered, hdecodes⟩
  | process s ia mapped =>
      obtain ⟨⟨hprocessing, hcomp⟩, hround⟩ := Option.ite_none_right_eq_some.mp hstep
      obtain ⟨hreceived, hdecodes⟩ := hinv.process hwf hprocessing hcomp hcounters hround
      exact ⟨hloop, hreceived ▸ hinv.delivered, hdecodes⟩
  | write result =>
      obtain ⟨hsending, hround⟩ := Option.ite_none_right_eq_some.mp hstep
      obtain ⟨hreceived, hdecodes⟩ := hinv.write hsending hround
      exact ⟨hloop, hreceived ▸ hinv.delivered, hdecodes⟩
  | finish =>
      obtain ⟨⟨hprocessing, hcomp⟩, heq⟩ := Option.ite_none_right_eq_some.mp hstep
      obtain rfl := Option.some.inj heq
      obtain ⟨hreceived, hdecodes⟩ := hinv.finish hwf hprocessing hcomp
      exact ⟨hloop, hreceived.symm ▸ hinv.delivered, hdecodes⟩

theorem streamInv_accepted (rxBuf txBuf : Memory)
    (hwf : ∀ request ∈ requests, WellFormed request) :
    StreamInv requests (accepted rxBuf txBuf) := by
  refine ⟨inv_accepted rxBuf txBuf, List.nil_prefix, 0, Nat.zero_le _, rfl, rfl, rfl, rfl,
    fun _ _ => ⟨rfl, fun request hget => ?_⟩⟩
  have hlength := (hwf request (List.mem_of_getElem? hget)).2.2
  have hsize : sizeofRequest = 24 := rfl
  show 0 < request.length
  omega

/-- Run lemma: as long as no read makes `rx_len` wrap and every response fits, the
requests processed are those of the stream, and the bytes sent those of their
responses. -/
theorem decodes_along (settings : Settings) (hash : List UInt8 → UInt32)
    (requests : List (List UInt8)) (hwf : ∀ request ∈ requests, WellFormed request)
    (rxBuf txBuf : Memory) (actions : List EventAction)
    (hmeets : Transition.Meets (EventConnection.step settings hash)
      (fun c action => Delivers requests c action ∧ c.CountersFit hash action)
      (accepted rxBuf txBuf) actions) :
    Transition.Along (EventConnection.step settings hash) (Decodes requests)
      (accepted rxBuf txBuf) actions :=
  Transition.along_of_meets (StreamInv requests) (fun _ => StreamInv.decodes)
    (fun _ _ _ hinv hmeets hstep => hinv.step hwf hmeets.1 hmeets.2 hstep)
    (streamInv_accepted rxBuf txBuf hwf) hmeets

/-! ## Two runs -/

theorem wellFormed_getRequest : WellFormed SplitRun.getRequest := by
  have hcommand : (Spans.headerOf SplitRun.getRequest).command = some .get := by decide +kernel
  refine ⟨by rw [hcommand]; nofun, ?_, by decide +kernel⟩
  unfold RequestHeader.Consistent
  rw [hcommand]
  show (Spans.headerOf SplitRun.getRequest).keylen ≤ (Spans.headerOf SplitRun.getRequest).bodylen
  decide +kernel

instance (requests : List (List UInt8)) (hash : List UInt8 → UInt32) (c : EventConnection)
    (action : EventAction) : Decidable (Delivers requests c action ∧ c.CountersFit hash action) :=
  match action with
  | .read (.done bytes) =>
      inferInstanceAs (Decidable (c.received ++ bytes <+: requests.flatten ∧
        c.rxLen + bytes.length < 2 ^ 16))
  | .process s _ _ => inferInstanceAs (Decidable (True ∧ c.ResponseFits hash s))
  | .event _ | .write _ | .finish | .read .zero | .read .again | .read .error =>
      isTrue ⟨trivial, trivial⟩

/-- Two GETs of a missing key in two reads, the first request in pieces; the response to
it blocks while the second request is unread. -/
def pipelinedGets : List EventAction :=
  [.event ⟨true, false, false⟩, .read (.done (SplitRun.getRequest.take 10)), .read .again,
    .event ⟨true, false, false⟩,
    .read (.done (SplitRun.getRequest.drop 10 ++ SplitRun.getRequest)),
    .process (.initial fun _ => 0) ⟨none, 0⟩ true, .write (.done 5), .write .again,
    .event ⟨false, true, false⟩, .write (.done 23),
    .process (.initial fun _ => 0) ⟨none, 0⟩ true, .write (.done 28), .finish]

theorem decodes_along_pipelinedGets :
    ((Transition.run (EventConnection.step Serving.servingSettings fun _ => 0)
        (accepted (fun _ => 0) fun _ => 0) pipelinedGets).map fun c =>
          (c.processed.length, c.sent.length)) = some (2, 56) ∧
      Transition.Along (EventConnection.step Serving.servingSettings fun _ => 0)
        (Decodes [SplitRun.getRequest, SplitRun.getRequest]) (accepted (fun _ => 0) fun _ => 0)
        pipelinedGets := by
  refine ⟨by decide +kernel, decodes_along Serving.servingSettings (fun _ => 0)
    [SplitRun.getRequest, SplitRun.getRequest] ?_ (fun _ => 0) (fun _ => 0) pipelinedGets
    (by decide +kernel)⟩
  intro request hmem
  obtain rfl | rfl : request = SplitRun.getRequest ∨ request = SplitRun.getRequest := by
    simpa using hmem
  · exact wellFormed_getRequest
  · exact wellFormed_getRequest

/-- A first read of 65536 bytes leaves `rx_len` zero. -/
theorem read_wraps (settings : Settings) (hash : List UInt8 → UInt32) {bytes : List UInt8}
    (hlength : bytes.length = 2 ^ 16) (rxBuf txBuf : Memory) :
    ∃ c₁ c₂, (accepted rxBuf txBuf).step settings hash (.event ⟨true, false, false⟩) = some c₁ ∧
      c₁.received = [] ∧ c₁.step settings hash (.read (.done bytes)) = some c₂ ∧
      c₂.received = bytes ∧ c₂.processed = [] ∧ c₂.unread = [] := by
  have hfits : 1 ≤ bytes.length ∧ bytes.length ≤ maxMsgsize - 0 := by
    rw [hlength]
    decide
  have hwraps : (0 + bytes.length) % 2 ^ 16 = 0 := by rw [hlength, Nat.zero_add, Nat.mod_self]
  have hevent : (accepted rxBuf txBuf).step settings hash (.event ⟨true, false, false⟩) =
      some { accepted rxBuf txBuf with pc := .receiving } := rfl
  have hread : EventConnection.step settings hash { accepted rxBuf txBuf with pc := .receiving }
      (.read (.done bytes)) =
      some (let c := { accepted rxBuf txBuf with
              rxBuf := rxBuf.write 0 bytes
              rxLen := (0 + bytes.length) % 2 ^ 16
              received := [] ++ bytes }
            { c with pc := if c.iscomp then .processing else .receiving }) := if_pos hfits
  refine ⟨_, _, hevent, rfl, hread, rfl, rfl, ?_⟩
  show (rxBuf.write 0 bytes).read 0 ((0 + bytes.length) % 2 ^ 16 - 0) = []
  rw [hwraps]
  rfl

/-- Pipelined requests of 65536 bytes, delivered at once. -/
theorem burst_lost {requests : List (List UInt8)} (hlength : requests.flatten.length = 2 ^ 16) :
    ∃ actions, Transition.Meets (EventConnection.step settings hash) (Delivers requests)
        (accepted (fun _ => 0) fun _ => 0) actions ∧
      ¬Transition.Along (EventConnection.step settings hash) (Decodes requests)
        (accepted (fun _ => 0) fun _ => 0) actions := by
  obtain ⟨c₁, c₂, hevent, hnone, hread, hreceived, hprocessed, hunread⟩ :=
    read_wraps settings hash hlength (fun _ => 0) (fun _ => 0)
  refine ⟨[.event ⟨true, false, false⟩, .read (.done requests.flatten)], ?_, fun halong => ?_⟩
  · refine Transition.Meets.cons hevent trivial (Transition.Meets.cons hread ?_ trivial)
    show c₁.received ++ _ <+: _
    rw [hnone]
    exact List.prefix_rfl
  · obtain ⟨k, -, htake, hsplit, -⟩ := (halong.2 c₁ hevent).2 c₂ hread
    rw [hreceived, ← htake, hprocessed, hunread] at hsplit
    rw [hsplit] at hlength
    exact absurd hlength (by decide)

theorem exists_burst : ∃ requests : List (List UInt8),
    (∀ request ∈ requests, WellFormed request) ∧ requests.flatten.length = 2 ^ 16 := by
  refine ⟨List.replicate 2048 SplitRun.getRequest, fun request hmem => ?_, ?_⟩
  · rw [List.eq_of_mem_replicate hmem]
    exact wellFormed_getRequest
  · have hrequest : SplitRun.getRequest.length = 32 := by decide
    rw [SplitRun.length_flatten_replicate, hrequest]
    decide

/-- A burst of 2048 pipelined requests is lost. -/
theorem not_decodes :
    ¬ ∀ requests : List (List UInt8), (∀ request ∈ requests, WellFormed request) →
      ∀ (rxBuf txBuf : Memory) (actions : List EventAction),
      Transition.Meets (EventConnection.step Serving.servingSettings fun _ => 0)
        (Delivers requests) (accepted rxBuf txBuf) actions →
      Transition.Along (EventConnection.step Serving.servingSettings fun _ => 0)
        (Decodes requests) (accepted rxBuf txBuf) actions := by
  intro hall
  obtain ⟨requests, hwf, hlength⟩ := exists_burst
  obtain ⟨actions, hmeets, hlost⟩ := burst_lost hlength
  exact hlost (hall requests hwf _ _ actions hmeets)

end ArmsTiering.Flexkvs.EventConnection
