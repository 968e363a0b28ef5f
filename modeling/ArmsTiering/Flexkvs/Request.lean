import ArmsTiering.Flexkvs.Hashtable

/-!
# Requests

The header of a request gives the lengths of its key, its extras and its body.
The key and the value are taken from the receive buffer at places computed from
these lengths.
-/

namespace ArmsTiering.Flexkvs

def maxMsgsize : ℕ := 1000000

/-- `sizeof(protocol_binary_request_header)` -/
def sizeofRequest : ℕ := 24

/-- `sizeof(protocol_binary_request_set)` -/
def sizeofRequestSet : ℕ := 32

/-- A header field in network byte order. -/
def ntoh (rx : Memory) (address n : ℕ) : ℕ := leValue (rx.read address n).reverse

/-- The fields of `protocol_binary_request_header` that the server reads. -/
structure RequestHeader where
  magic : ℕ
  opcode : ℕ
  keylen : ℕ
  extlen : ℕ
  bodylen : ℕ
  opaqueField : ℕ
  deriving DecidableEq

def requestHeader (rx : Memory) (off : ℕ) : RequestHeader where
  magic := ntoh rx off 1
  opcode := ntoh rx (off + 1) 1
  keylen := ntoh rx (off + 2) 2
  extlen := ntoh rx (off + 4) 1
  bodylen := ntoh rx (off + 8) 4
  opaqueField := ntoh rx (off + 12) 4

/-- The opcodes that the server handles. -/
inductive Command
  | get
  | set
  | delete
  deriving DecidableEq

/-- The command of a request; `none` if the connection is closed. -/
def RequestHeader.command (header : RequestHeader) : Option Command :=
  if header.magic ≠ 0x80 then none
  else if header.opcode = 0x00 then some .get
  else if header.opcode = 0x01 then some .set
  else if header.opcode = 0x04 then some .delete
  else none

/-- `vl`, which is computed in 32 bits -/
def RequestHeader.vallen (header : RequestHeader) : ℕ :=
  (header.bodylen + 2 ^ 32 - header.keylen - header.extlen) % 2 ^ 32

/-- A range of the receive buffer. -/
structure Span where
  start : ℕ
  length : ℕ
  deriving DecidableEq

/-- `k` and `kl` -/
def Command.key (command : Command) (off : ℕ) (header : RequestHeader) : Span :=
  match command with
  | .get | .delete => ⟨off + sizeofRequest, header.keylen⟩
  | .set => ⟨off + sizeofRequestSet, header.keylen⟩

/-- `v` and `vl`; only the value of a SET is read. -/
def Command.value (command : Command) (off : ℕ) (header : RequestHeader) : Span :=
  match command with
  | .get | .delete => ⟨off + sizeofRequest, 0⟩
  | .set => ⟨off + sizeofRequestSet + header.keylen, header.vallen⟩

def Span.read (span : Span) (rx : Memory) : List UInt8 := rx.read span.start span.length

/-- `conn_req_iscomp` -/
def connReqIscomp (rx : Memory) (rxLen rxOff : ℕ) : Bool :=
  let avail := (rxLen + 2 ^ 16 - rxOff) % 2 ^ 16
  if avail < sizeofRequest then false
  else if avail < sizeofRequest + (requestHeader rx rxOff).bodylen then false
  else true

/-! ## Processing a request -/

/-- The response; the fields that are constant are left out, and `cas` is not
written. -/
structure Response where
  opcode : ℕ
  extlen : ℕ
  status : ℕ
  bodylen : ℕ
  opaqueField : ℕ
  body : List UInt8
  deriving DecidableEq

/-- The part of `struct connection` that the processing of a request uses. -/
structure Connection where
  it : ℕ
  rxOff : ℕ
  txLen : ℕ
  reqDone : Bool
  deriving DecidableEq

inductive ProcessOutcome
  | closed
  | waiting
  | answered (response : Response)
  deriving DecidableEq

/-- `PROTOCOL_BINARY_RESPONSE_SUCCESS` -/
def statusSuccess : ℕ := 0x00

/-- `PROTOCOL_BINARY_RESPONSE_KEY_ENOENT` -/
def statusEnoent : ℕ := 0x01

/-- `PROTOCOL_BINARY_RESPONSE_ENOMEM` -/
def statusEnomem : ℕ := 0x82

/-- `sizeof(protocol_binary_response_header)` -/
def sizeofResponse : ℕ := 24

section

variable (settings : Settings) (hash : List UInt8 → UInt32)

/-- The allocation of an item for a new key, and its insertion; undefined where
no item can be allocated. -/
def setNew (s : Store) (ia : ItemAllocator) (key value : List UInt8) (mapped : Bool) :
    Option (Store × ItemAllocator × ℕ) :=
  (iallocAlloc settings s.mem s.log ia (sizeofItem + key.length + value.length) false mapped).bind
    fun allocated =>
      let it := allocated.2.2.2
      if it = 0 then none
      else
        let s := { s with
          mem := fillItem allocated.1 it (hash key).toNat key value
          log := allocated.2.1 }
        (hashtPut settings s it 0).map fun s => (s, allocated.2.2.1, it)

/-- The part of a SET before its response. -/
def beginSet (s : Store) (ia : ItemAllocator) (key value : List UInt8) (mapped : Bool) :
    Option (Store × ItemAllocator × ℕ) :=
  (hashtGet s key (hash key).toNat).bind fun found =>
    let filled := if found.2 = 0 then setNew settings hash found.1 ia key value mapped
      else some ({ found.1 with
        mem := fillItem found.1.mem found.2 (hash key).toNat key value }, ia, found.2)
    filled.bind fun (s, ia, it) => (itemUnref settings s it).map fun s => (s, ia, it)

/-- `madvise` with `MADV_DONTNEED`, which fails unless the address is that of a
page, and otherwise clears all pages that the range touches. -/
def madviseDontneed (m : Memory) (address length : ℕ) : Memory := fun x =>
  if address % 4096 = 0 ∧ address ≤ x ∧ x < address + (length + 4095) / 4096 * 4096 then 0 else m x

/-- `ialloc_free_dont_need` -/
def iallocFreeDontNeed (s : Store) (it total : ℕ) : Option Store :=
  (iallocFree settings s.log it total).map fun log =>
    { s with mem := madviseDontneed s.mem it (itemTotalsz s.mem it), log := log }

/-- The part of a DELETE before its response: the item and `success`. -/
def beginDelete (s : Store) (key : List UInt8) : Option (Store × ℕ × Bool) :=
  (hashtGet s key (hash key).toNat).bind fun (s, it) =>
    if it = 0 then some (s, 0, false)
    else (iallocFreeDontNeed settings s it (itemTotalsz s.mem it)).map fun s => (s, it, true)

/-- What `conn_req_process` does once the item of the request is known, if the
response fits. -/
def Connection.advance (c : Connection) (header : RequestHeader) (rsl : ℕ) : Connection :=
  { c with
    rxOff := (c.rxOff + (sizeofRequest + header.bodylen) % 2 ^ 32) % 2 ^ 16
    txLen := (c.txLen + rsl) % 2 ^ 16
    reqDone := false }

/-- The response to a GET. -/
def getResponse (m : Memory) (it : ℕ) (header : RequestHeader) : Response :=
  if it = 0 then ⟨0x00, 4, statusEnoent, 4, header.opaqueField, [0, 0, 0, 0]⟩
  else ⟨0x00, 4, statusSuccess, (4 + itemVallen m it) % 2 ^ 32, header.opaqueField,
    [0, 0, 0, 0] ++ m.read (itemValue m it) (itemVallen m it)⟩

/-- `rsl` of a GET -/
def getResponseLength (m : Memory) (it : ℕ) : ℕ :=
  if it = 0 then sizeofResponse + 4 else (sizeofResponse + 4 + itemVallen m it) % 2 ^ 32

/-- A GET: the lookup unless it has been done, and the response. -/
def processGet (s : Store) (c : Connection) (header : RequestHeader) (key : List UInt8) :
    Option (Store × Connection × ProcessOutcome) :=
  let looked := if c.reqDone then some (s, c.it) else hashtGet s key (hash key).toNat
  looked.bind fun (s, it) =>
    let c := { c with it := it, reqDone := true }
    let rsl := getResponseLength s.mem it
    if maxMsgsize - c.txLen < rsl then some (s, c, .waiting)
    else
      let response := getResponse s.mem it header
      let dropped := if it = 0 then some s else itemUnref settings s it
      dropped.map fun s => (s, c.advance header rsl, .answered response)

/-- A SET: the assignment unless it has been made, and the response. -/
def processSet (s : Store) (ia : ItemAllocator) (c : Connection) (header : RequestHeader)
    (key value : List UInt8) (mapped : Bool) :
    Option (Store × ItemAllocator × Connection × ProcessOutcome) :=
  let assigned := if c.reqDone then some (s, ia, c.it)
    else beginSet settings hash s ia key value mapped
  assigned.map fun (s, ia, it) =>
    let c := { c with it := it, reqDone := true }
    if maxMsgsize - c.txLen < sizeofResponse then (s, ia, c, .waiting)
    else
      (s, ia, c.advance header sizeofResponse,
        .answered ⟨0x01, 0, if it = 0 then statusEnomem else statusSuccess, 0,
          header.opaqueField, []⟩)

/-- A DELETE: the release unless it has been done, and the response. -/
def processDelete (s : Store) (c : Connection) (header : RequestHeader) (key : List UInt8) :
    Option (Store × Connection × ProcessOutcome) :=
  let released := if c.reqDone then some (s, c.it, false) else beginDelete settings hash s key
  released.map fun (s, it, success) =>
    let c := { c with it := it, reqDone := true }
    if maxMsgsize - c.txLen < sizeofResponse then (s, c, .waiting)
    else
      (s, c.advance header sizeofResponse,
        .answered ⟨0x04, 4, if success then statusSuccess else statusEnoent, 0,
          header.opaqueField, []⟩)

/-- `conn_close`, without the socket -/
def connClose (s : Store) (c : Connection) : Option Store :=
  if c.it ≠ 0 then itemUnref settings s c.it else some s

/-- `conn_req_process`; undefined where an assertion fails or `NULL` is used. -/
def connReqProcess (s : Store) (ia : ItemAllocator) (rx : Memory) (c : Connection)
    (mapped : Bool) : Option (Store × ItemAllocator × Connection × ProcessOutcome) :=
  let header := requestHeader rx c.rxOff
  match header.command with
  | none => (connClose settings s c).map fun s => (s, ia, c, .closed)
  | some .get =>
      (processGet settings hash s c header ((Command.get.key c.rxOff header).read rx)).map
        fun (s, c, outcome) => (s, ia, c, outcome)
  | some .set =>
      processSet settings hash s ia c header ((Command.set.key c.rxOff header).read rx)
        ((Command.set.value c.rxOff header).read rx) mapped
  | some .delete =>
      (processDelete settings hash s c header ((Command.delete.key c.rxOff header).read rx)).map
        fun (s, c, outcome) => (s, ia, c, outcome)

end

/-! ## The bytes that a request is read from -/

/-- All bytes of the span are among the given ones. -/
def Span.Inside (span : Span) (off length : ℕ) : Prop :=
  ∀ x, span.start ≤ x → x < span.start + span.length → off ≤ x ∧ x < off + length

/-- The request is rejected, or its key and value are parts of it, its value has
the length that is left for it, and nothing else is read. -/
def RequestConfined (settings : Settings) (hash : List UInt8 → UInt32) (s : Store)
    (ia : ItemAllocator) (rx : Memory) (c : Connection) (mapped : Bool) : Prop :=
  let header := requestHeader rx c.rxOff
  let size := sizeofRequest + header.bodylen
  header.command = none ∨ ∃ command, header.command = some command ∧
    (command.key c.rxOff header).Inside c.rxOff size ∧
    (command.value c.rxOff header).Inside c.rxOff size ∧
    (command = .set → header.vallen + header.keylen + header.extlen = header.bodylen) ∧
    ∀ rx', Memory.AgreeOn rx rx' c.rxOff (c.rxOff + size) →
      connReqProcess settings hash s ia rx' c mapped = connReqProcess settings hash s ia rx c mapped

/-- The lengths in a header are consistent. -/
def RequestHeader.Consistent (header : RequestHeader) : Prop :=
  match header.command with
  | none => True
  | some .get | some .delete => header.keylen ≤ header.bodylen
  | some .set => header.keylen + header.extlen ≤ header.bodylen ∧
      (header.keylen ≠ 0 → header.keylen + 8 ≤ header.bodylen) ∧
      (header.keylen + header.extlen < header.bodylen → 8 ≤ header.extlen)

theorem ntoh_lt (rx : Memory) (address n : ℕ) : ntoh rx address n < 256 ^ n := by
  have hlt := leValue_lt (rx.read address n).reverse
  rwa [List.length_reverse, Memory.length_read] at hlt

section

variable {rx rx' : Memory} {off lo hi : ℕ}

/-- The header depends on its own bytes. -/
theorem requestHeader_congr (hagree : Memory.AgreeOn rx rx' off (off + sizeofRequest)) :
    requestHeader rx' off = requestHeader rx off := by
  have hsize : sizeofRequest = 24 := rfl
  have hfield : ∀ address n, off ≤ address → address + n ≤ off + sizeofRequest →
      ntoh rx' address n = ntoh rx address n := by
    intro address n hlo hhi
    rw [ntoh, ntoh, hagree.read_eq hlo hhi]
  unfold requestHeader
  rw [hfield off 1 le_rfl (by omega), hfield (off + 1) 1 (by omega) (by omega),
    hfield (off + 2) 2 (by omega) (by omega), hfield (off + 4) 1 (by omega) (by omega),
    hfield (off + 8) 4 (by omega) (by omega), hfield (off + 12) 4 (by omega) (by omega)]

/-- So does what is read from a span inside. -/
theorem Span.read_congr {span : Span} (hinside : span.Inside lo (hi - lo))
    (hagree : Memory.AgreeOn rx rx' lo hi) : span.read rx' = span.read rx := by
  unfold Span.read
  rcases Nat.eq_zero_or_pos span.length with hzero | hpos
  · rw [hzero]
    rfl
  · have hfirst := hinside span.start le_rfl (by omega)
    have hlast := hinside (span.start + span.length - 1) (by omega) (by omega)
    exact hagree.read_eq hfirst.1 (by omega)

theorem Span.inside_iff {start length size : ℕ} (hstart : off ≤ start) :
    (⟨start, length⟩ : Span).Inside off size ↔ (length ≠ 0 → start + length ≤ off + size) := by
  constructor
  · intro hinside hne
    have hlast : start + length - 1 < off + size :=
      (hinside (start + length - 1) (by dsimp only; omega) (by dsimp only; omega)).2
    omega
  · intro hend x hlo hhi
    dsimp only at hlo hhi
    have hle := hend (by omega)
    omega

end

/-- The value has the length that is left for it unless that is negative. -/
theorem vallen_eq_iff (rx : Memory) (off : ℕ) :
    (requestHeader rx off).vallen + (requestHeader rx off).keylen + (requestHeader rx off).extlen =
        (requestHeader rx off).bodylen ↔
      (requestHeader rx off).keylen + (requestHeader rx off).extlen ≤
        (requestHeader rx off).bodylen := by
  have hkeylen : (requestHeader rx off).keylen < 256 ^ 2 := ntoh_lt rx _ 2
  have hextlen : (requestHeader rx off).extlen < 256 ^ 1 := ntoh_lt rx _ 1
  have hbodylen : (requestHeader rx off).bodylen < 256 ^ 4 := ntoh_lt rx _ 4
  unfold RequestHeader.vallen
  omega

/-- Only the header, the key and the value of a request are read. -/
theorem connReqProcess_congr (settings : Settings) (hash : List UInt8 → UInt32) (s : Store)
    (ia : ItemAllocator) {rx rx' : Memory} (c : Connection) (mapped : Bool)
    (hheader : requestHeader rx' c.rxOff = requestHeader rx c.rxOff)
    (hread : ∀ command, (requestHeader rx c.rxOff).command = some command →
      (command.key c.rxOff (requestHeader rx c.rxOff)).read rx' =
          (command.key c.rxOff (requestHeader rx c.rxOff)).read rx ∧
        (command.value c.rxOff (requestHeader rx c.rxOff)).read rx' =
          (command.value c.rxOff (requestHeader rx c.rxOff)).read rx) :
    connReqProcess settings hash s ia rx' c mapped =
      connReqProcess settings hash s ia rx c mapped := by
  unfold connReqProcess
  rw [hheader]
  generalize requestHeader rx c.rxOff = header at hread
  cases hcommand : header.command with
  | none => simp only [hcommand]
  | some command =>
      obtain ⟨hkey, hvalue⟩ := hread command hcommand
      cases command with
      | get => simp only [hcommand, hkey]
      | set => simp only [hcommand, hkey, hvalue]
      | delete => simp only [hcommand, hkey]

/-- The spans of a request are inside if and only if its lengths are consistent. -/
theorem spans_inside_iff (rx : Memory) (off : ℕ) {command : Command}
    (hcommand : (requestHeader rx off).command = some command) :
    ((command.key off (requestHeader rx off)).Inside off
          (sizeofRequest + (requestHeader rx off).bodylen) ∧
        (command.value off (requestHeader rx off)).Inside off
          (sizeofRequest + (requestHeader rx off).bodylen) ∧
        (command = .set → (requestHeader rx off).vallen + (requestHeader rx off).keylen +
          (requestHeader rx off).extlen = (requestHeader rx off).bodylen)) ↔
      (requestHeader rx off).Consistent := by
  have hwrap := vallen_eq_iff rx off
  have hsize : sizeofRequest = 24 := rfl
  have hsizeSet : sizeofRequestSet = 32 := rfl
  unfold RequestHeader.Consistent
  rw [hcommand]
  cases command with
  | get =>
      unfold Command.key Command.value
      rw [Span.inside_iff (by omega), Span.inside_iff (by omega)]
      exact ⟨fun h => by have := h.1; omega, fun h => ⟨by omega, by omega, nofun⟩⟩
  | delete =>
      unfold Command.key Command.value
      rw [Span.inside_iff (by omega), Span.inside_iff (by omega)]
      exact ⟨fun h => by have := h.1; omega, fun h => ⟨by omega, by omega, nofun⟩⟩
  | set =>
      unfold Command.key Command.value
      rw [Span.inside_iff (by omega), Span.inside_iff (by omega)]
      constructor
      · rintro ⟨hkey, hvalue, hlength⟩
        have hsum := hlength rfl
        have hle := hwrap.mp hsum
        exact ⟨hle, by omega, by omega⟩
      · rintro ⟨hle, hkey, hextras⟩
        have hsum := hwrap.mpr hle
        exact ⟨by omega, by omega, fun _ => hsum⟩

/-- A request is confined to its bytes if and only if its lengths are consistent. -/
theorem requestConfined_iff (settings : Settings) (hash : List UInt8 → UInt32) (s : Store)
    (ia : ItemAllocator) (rx : Memory) (c : Connection) (mapped : Bool) :
    RequestConfined settings hash s ia rx c mapped ↔ (requestHeader rx c.rxOff).Consistent := by
  unfold RequestConfined
  dsimp only
  cases hcommand : (requestHeader rx c.rxOff).command with
  | none =>
      unfold RequestHeader.Consistent
      rw [hcommand]
      exact ⟨fun _ => trivial, fun _ => .inl rfl⟩
  | some command =>
      have hspans := spans_inside_iff rx c.rxOff hcommand
      constructor
      · rintro (hnone | ⟨command', hsame, hkey, hvalue, hlength, _⟩)
        · cases hnone
        · obtain rfl := Option.some.inj hsame
          exact hspans.mp ⟨hkey, hvalue, hlength⟩
      · intro hconsistent
        obtain ⟨hkey, hvalue, hlength⟩ := hspans.mpr hconsistent
        refine .inr ⟨command, rfl, hkey, hvalue, hlength, fun rx' hagree => ?_⟩
        refine connReqProcess_congr settings hash s ia c mapped ?_ fun command' hsame => ?_
        · exact requestHeader_congr (hagree.mono le_rfl (by omega))
        · rw [hcommand] at hsame
          obtain rfl := Option.some.inj hsame
          refine ⟨Span.read_congr ?_ hagree, Span.read_congr ?_ hagree⟩
          · rwa [Nat.add_sub_cancel_left]
          · rwa [Nat.add_sub_cancel_left]

/-- A GET with a key of five bytes and no body. -/
def keylessGet : Memory := fun x => if x = 0 then 0x80 else if x = 3 then 5 else 0

theorem not_requestConfined :
    connReqIscomp keylessGet 24 0 = true ∧
      ¬RequestConfined ⟨64, 4096, 1, by decide⟩ (fun _ => 0) (.initial fun _ => 0) ⟨none, 0⟩
        keylessGet ⟨0, 0, 0, false⟩ true := by
  refine ⟨by decide, fun hconfined => ?_⟩
  rcases hconfined with hnone | ⟨command, hcommand, hkey, _⟩
  · exact absurd hnone (by decide)
  · obtain rfl : Command.get = command := Option.some.inj hcommand
    have hlast := hkey 28 (by decide) (by decide)
    exact absurd hlast.2 (by decide)

end ArmsTiering.Flexkvs
