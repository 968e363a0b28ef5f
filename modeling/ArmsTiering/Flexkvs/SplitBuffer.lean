import ArmsTiering.Core.Transition
import ArmsTiering.Flexkvs.Request

/-!
# The two-span receive buffer

The low-level server leaves received bytes where the transport put them, in a
circular buffer, and keeps two spans of them per connection.  Pieces are appended to
the spans and requests are consumed from them.  The transport chooses the pieces;
`split_read` is a parameter.
-/

namespace ArmsTiering.Flexkvs

/-- A conversion to `int`. -/
def toInt (x : ℤ) : ℤ := Int.bmod x (2 ^ 32)

/-- A conversion to `size_t`. -/
def toSize (x : ℤ) : ℕ := (x % 2 ^ 64).toNat

/-- The spans of `struct connection`. -/
structure Spans where
  buf1 : ℕ
  buf2 : ℕ
  len1 : ℤ
  len2 : ℤ
  deriving DecidableEq

/-- Where `connection_recv` is; `waiting` is outside it, and in the last three the
server has aborted. -/
inductive RecvPc
  | waiting
  | consuming
  | assertFailed
  | weird
  | rejected
  deriving DecidableEq

/-- A request as the server reads it. -/
structure DecodedRequest where
  header : RequestHeader
  key : List UInt8
  value : List UInt8
  deriving DecidableEq

/-- `split_read` with its arguments but the destination, and the bytes it copies. -/
abbrev SplitRead := Memory → ℕ → Spans → ℕ → List UInt8

/-- The bytes of the first span, then those of the second. -/
def Spans.bytes (c : Spans) (mem : Memory) : List UInt8 :=
  mem.read c.buf1 c.len1.toNat ++ mem.read c.buf2 c.len2.toNat

/-- `split_read` copies the bytes at an offset of the two spans. -/
def SplitRead.Copies (splitRead : SplitRead) : Prop :=
  ∀ mem len (c : Spans) off, 0 ≤ c.len1 → 0 ≤ c.len2 →
    off + len ≤ c.len1.toNat + c.len2.toNat →
    splitRead mem len c off = ((c.bytes mem).drop off).take len

namespace Spans

/-- The header fields of a request that was copied out of the buffer. -/
def headerOf (bytes : List UInt8) : RequestHeader := requestHeader (fun x => bytes.getD x 0) 0

/-- "add new bytes to receive buffer" -/
def append (c : Spans) (buf n : ℕ) : Except RecvPc Spans :=
  if c.len1 = 0 then
    if c.len2 = 0 then .ok { c with buf1 := buf, len1 := toInt n } else .error .assertFailed
  else if (c.buf1 : ℤ) + c.len1 = buf then
    if c.len2 = 0 then .ok { c with len1 := toInt (c.len1 + n) } else .error .assertFailed
  else if c.len2 = 0 then .ok { c with buf2 := buf, len2 := toInt n }
  else if (c.buf2 : ℤ) + c.len2 = buf then .ok { c with len2 := toInt (c.len2 + n) }
  else .error .weird

/-- `c->len_1 + c->len_2` as it is compared. -/
def available (c : Spans) : ℕ := toSize (toInt (c.len1 + c.len2))

/-- What is done to the spans once a request of `reql` bytes was processed. -/
def consume (c : Spans) (reql : ℕ) : Spans :=
  if reql ≤ toSize c.len1 then
    let len1 := toInt (c.len1 - reql)
    if len1 = 0 then { c with buf1 := c.buf2, len1 := c.len2, len2 := 0 }
    else { c with buf1 := c.buf1 + reql, len1 := len1 }
  else
    let rest := reql - c.len1
    { buf1 := (c.buf2 + rest).toNat, buf2 := (c.buf2 + rest).toNat
      len1 := toInt (c.len2 - rest), len2 := 0 }

end Spans

/-- The circular buffer of a connection. -/
structure Ring where
  base : ℕ
  size : ℕ

/-- The connection, the memory of the buffer, the offset behind the newest byte, the
number of bytes given back, and what was received and decoded. -/
structure SplitRun where
  spans : Spans
  mem : Memory
  tail : ℕ
  released : ℕ
  pc : RecvPc
  received : List UInt8
  decoded : List DecodedRequest

inductive SplitAction
  | receive (bytes : List UInt8)
  | consume
  | finish

namespace SplitRun

section

variable (splitRead : SplitRead) (ring : Ring)

/-- A new connection; the transport's first piece may start anywhere. -/
def accepted (mem : Memory) (tail : ℕ) : SplitRun where
  spans := ⟨0, 0, 0, 0⟩
  mem := mem
  tail := tail
  released := 0
  pc := .waiting
  received := []
  decoded := []

/-- The header of the next request. -/
def header (t : SplitRun) : RequestHeader :=
  Spans.headerOf (splitRead t.mem sizeofRequest t.spans 0)

/-- The conditions of the loop and of its `break`. -/
def complete (t : SplitRun) : Bool :=
  sizeofRequest ≤ t.spans.available ∧
    sizeofRequest + (t.header splitRead).bodylen ≤ t.spans.available

/-- The next request, with its value if it is a SET. -/
def decodeNext (t : SplitRun) : DecodedRequest :=
  let header := t.header splitRead
  { header := header
    key := splitRead t.mem header.keylen t.spans (sizeofRequest + header.extlen)
    value := if header.command = some .set then
        splitRead t.mem ((header.bodylen + 2 ^ 32 - header.extlen - header.keylen) % 2 ^ 32)
          t.spans (sizeofRequest + header.extlen + header.keylen)
      else [] }

/-- Where the transport puts the next piece: behind the last one, or at the base once
the end of the buffer was reached. -/
def start (t : SplitRun) : ℕ := if t.tail = ring.size then 0 else t.tail

def step (t : SplitRun) : SplitAction → Option SplitRun
  | .receive bytes =>
      if t.pc = .waiting ∧ 1 ≤ bytes.length ∧ t.start ring + bytes.length ≤ ring.size ∧
          t.received.length - t.released + bytes.length ≤ ring.size then
        let next := { t with
          mem := t.mem.write (ring.base + t.start ring) bytes
          tail := t.start ring + bytes.length
          received := t.received ++ bytes }
        match t.spans.append (ring.base + t.start ring) bytes.length with
        | .ok spans => some { next with spans := spans, pc := .consuming }
        | .error pc => some { next with pc := pc }
      else none
  | .consume =>
      if t.pc = .consuming ∧ t.complete splitRead then
        let header := t.header splitRead
        if header.command = some .get ∨ header.command = some .set then
          let reql := sizeofRequest + header.bodylen
          some { t with
            spans := t.spans.consume reql
            released := t.released + reql
            decoded := t.decoded ++ [t.decodeNext splitRead] }
        else some { t with pc := .rejected }
      else none
  | .finish =>
      if t.pc = .consuming ∧ ¬t.complete splitRead then some { t with pc := .waiting } else none

end

/-! ## Well-formed streams -/

/-- A GET or SET request whose lengths are consistent. -/
def WellFormed (request : List UInt8) : Prop :=
  let header := Spans.headerOf request
  (header.command = some .get ∨ header.command = some .set) ∧
    header.extlen + header.keylen ≤ header.bodylen ∧
    request.length = sizeofRequest + header.bodylen

def decodeRequest (request : List UInt8) : DecodedRequest :=
  let header := Spans.headerOf request
  { header := header
    key := (request.drop (sizeofRequest + header.extlen)).take header.keylen
    value := if header.command = some .set then
        request.drop (sizeofRequest + header.extlen + header.keylen)
      else [] }

/-- The transport delivers the bytes of the stream in order. -/
def Delivers (requests : List (List UInt8)) (t : SplitRun) : SplitAction → Prop
  | .receive bytes => t.received ++ bytes <+: requests.flatten
  | _ => True

/-- The server has not aborted, the spans hold the received bytes that were not
consumed, and the requests decoded are those of the stream that were received in
full. -/
def Streams (requests : List (List UInt8)) (t : SplitRun) : Prop :=
  (t.pc = .waiting ∨ t.pc = .consuming) ∧
    ∃ k, k ≤ requests.length ∧
      t.received = (requests.take k).flatten ++ t.spans.bytes t.mem ∧
      t.decoded = (requests.take k).map decodeRequest ∧
      (t.pc = .waiting → ∀ request, requests[k]? = some request →
        (t.spans.bytes t.mem).length < request.length)

end SplitRun

theorem toInt_natCast {n : ℕ} (hn : n < 2 ^ 31) : toInt n = n := by
  unfold toInt
  rw [Int.bmod_def]
  omega

theorem toSize_natCast {n : ℕ} (hn : n < 2 ^ 31) : toSize n = n := by
  unfold toSize
  omega

/-- The spans lie behind each other in the circular buffer and end with its newest
byte; two are used only when the first reaches the end of the buffer. -/
structure Layout (ring : Ring) (c : Spans) (tail l1 l2 : ℕ) : Prop where
  len1 : c.len1 = l1
  len2 : c.len2 = l2
  tail_le : tail ≤ ring.size
  size_le : l1 + l2 ≤ ring.size
  shape : (l2 = 0 ∧ (l1 ≠ 0 → ring.base ≤ c.buf1 ∧ c.buf1 + l1 = ring.base + tail)) ∨
    (l1 ≠ 0 ∧ l2 ≠ 0 ∧ ring.base ≤ c.buf1 ∧ c.buf1 + l1 = ring.base + ring.size ∧
      c.buf2 = ring.base ∧ l2 = tail)

namespace Layout

variable {ring : Ring} {c : Spans} {tail l1 l2 : ℕ}

theorem bytes_eq (h : Layout ring c tail l1 l2) (mem : Memory) :
    c.bytes mem = mem.read c.buf1 l1 ++ mem.read c.buf2 l2 := by
  rw [Spans.bytes, h.len1, h.len2, Int.toNat_natCast, Int.toNat_natCast]

theorem length_bytes (h : Layout ring c tail l1 l2) (mem : Memory) :
    (c.bytes mem).length = l1 + l2 := by
  rw [h.bytes_eq, List.length_append, Memory.length_read, Memory.length_read]

theorem available_eq (h : Layout ring c tail l1 l2) (hsize : ring.size < 2 ^ 31) :
    c.available = l1 + l2 := by
  have hlt : l1 + l2 < 2 ^ 31 := h.size_le.trans_lt hsize
  rw [Spans.available, h.len1, h.len2, ← Int.natCast_add, toInt_natCast hlt, toSize_natCast hlt]

/-- A piece that fits into the unused part of the buffer is appended. -/
theorem append (h : Layout ring c tail l1 l2) (hsize : ring.size < 2 ^ 31) (start : ℕ) {n : ℕ}
    (hstart : start = if tail = ring.size then 0 else tail) (hn : 1 ≤ n)
    (hfit : start + n ≤ ring.size) (hroom : l1 + l2 + n ≤ ring.size) :
    ∃ c' l1' l2', c.append (ring.base + start) n = .ok c' ∧
      Layout ring c' (start + n) l1' l2' ∧
      ∀ mem bytes, bytes.length = n →
        c'.bytes (mem.write (ring.base + start) bytes) = c.bytes mem ++ bytes := by
  have hnInt : toInt n = n := toInt_natCast (by omega)
  have hread : ∀ (mem : Memory) (bytes : List UInt8), bytes.length = n →
      (mem.write (ring.base + start) bytes).read (ring.base + start) n = bytes := by
    rintro mem bytes rfl
    exact Memory.read_write mem _ bytes
  have happend : ∀ (mem : Memory) (bytes : List UInt8) (address l : ℕ), bytes.length = n →
      address + l = ring.base + start →
      (mem.write (ring.base + start) bytes).read address (l + n) = mem.read address l ++ bytes := by
    intro mem bytes address l hlength haddress
    have hold : (mem.write (ring.base + start) bytes).read address l = mem.read address l :=
      (Memory.agreeOn_write (.inl le_rfl)).read_eq le_rfl haddress.le
    rw [Memory.read_add, haddress, hread mem bytes hlength, hold]
  have hkept : ∀ (mem : Memory) (bytes : List UInt8) (address l : ℕ), bytes.length = n →
      ring.base + start + n ≤ address →
      (mem.write (ring.base + start) bytes).read address l = mem.read address l := by
    intro mem bytes address l hlength haddress
    refine (Memory.agreeOn_write (.inr ?_)).read_eq haddress le_rfl
    rw [hlength]
  by_cases hzero : l1 = 0
  · obtain ⟨hl2, -⟩ := h.shape.resolve_right fun hb => hb.1 hzero
    refine ⟨{ c with buf1 := ring.base + start, len1 := n }, n, 0, ?_, ⟨rfl, ?_, hfit, ?_, ?_⟩, ?_⟩
    · rw [Spans.append, if_pos (by rw [h.len1, hzero]; rfl), if_pos (by rw [h.len2, hl2]; rfl),
        hnInt]
    · rw [← hl2]
      exact h.len2
    · omega
    · exact .inl ⟨rfl, fun _ => ⟨Nat.le_add_right _ _, Nat.add_assoc _ _ _⟩⟩
    · intro mem bytes hlength
      rw [h.bytes_eq, hzero, hl2, Spans.bytes, h.len2, hl2]
      simpa [Memory.read] using hread mem bytes hlength
  · have hlen1 : c.len1 ≠ 0 := by
      rw [h.len1]
      exact_mod_cast hzero
    rcases h.shape with ⟨hl2, hend⟩ | ⟨-, hl2, hbase, hend, hbuf2, htail⟩
    · obtain ⟨hbase, hend⟩ := hend hzero
      by_cases hfull : tail = ring.size
      · -- the first span reaches the end, and the piece starts at the base
        rw [if_pos hfull] at hstart
        subst hstart
        refine ⟨{ c with buf2 := ring.base + 0, len2 := n }, l1, n, ?_,
          ⟨h.len1, rfl, hfit, by omega, ?_⟩, ?_⟩
        · rw [Spans.append, if_neg hlen1, if_neg (by rw [h.len1]; omega),
            if_pos (by rw [h.len2, hl2]; rfl), hnInt]
        · refine .inr ⟨hzero, by omega, hbase, ?_, rfl, (Nat.zero_add n).symm⟩
          show c.buf1 + l1 = _
          omega
        · intro mem bytes hlength
          rw [h.bytes_eq, hl2, Spans.bytes, h.len1]
          show (mem.write (ring.base + 0) bytes).read c.buf1 l1 ++
            (mem.write (ring.base + 0) bytes).read (ring.base + 0) n = _
          rw [hread mem bytes hlength, hkept mem bytes c.buf1 l1 hlength (by omega)]
          simp [Memory.read]
      · rw [if_neg hfull] at hstart
        subst hstart
        refine ⟨{ c with len1 := (l1 + n : ℕ) }, l1 + n, 0, ?_, ⟨rfl, ?_, hfit, by omega, ?_⟩, ?_⟩
        · rw [Spans.append, if_neg hlen1, if_pos (by rw [h.len1]; omega),
            if_pos (by rw [h.len2, hl2]; rfl), h.len1, ← Int.natCast_add, toInt_natCast (by omega)]
        · rw [← hl2]
          exact h.len2
        · refine .inl ⟨rfl, fun _ => ⟨hbase, ?_⟩⟩
          show c.buf1 + (l1 + n) = _
          omega
        · intro mem bytes hlength
          rw [h.bytes_eq, hl2, Spans.bytes, h.len2, hl2]
          show (mem.write (ring.base + start) bytes).read c.buf1 (l1 + n) ++ [] = _
          rw [happend mem bytes c.buf1 l1 hlength hend]
          simp [Memory.read]
    · have hfull : tail ≠ ring.size := by
        have := h.size_le
        omega
      rw [if_neg hfull] at hstart
      subst hstart
      refine ⟨{ c with len2 := (l2 + n : ℕ) }, l1, l2 + n, ?_,
        ⟨h.len1, rfl, hfit, by omega, ?_⟩, ?_⟩
      · have hlen2 : c.len2 ≠ 0 := by
          rw [h.len2]
          exact_mod_cast hl2
        rw [Spans.append, if_neg hlen1, if_neg (by rw [h.len1]; omega), if_neg hlen2,
          if_pos (by rw [h.len2]; omega), h.len2, ← Int.natCast_add, toInt_natCast (by omega)]
      · exact .inr ⟨hzero, by omega, hbase, hend, hbuf2, by omega⟩
      · intro mem bytes hlength
        rw [h.bytes_eq, Spans.bytes, h.len1]
        show (mem.write (ring.base + start) bytes).read c.buf1 l1 ++
          (mem.write (ring.base + start) bytes).read c.buf2 (l2 + n) = _
        rw [happend mem bytes c.buf2 l2 hlength (by omega),
          hkept mem bytes c.buf1 l1 hlength (by omega), List.append_assoc]

/-- A request is consumed from the front of the spans. -/
theorem consume (h : Layout ring c tail l1 l2) (hsize : ring.size < 2 ^ 31) {reql : ℕ}
    (hreql : reql ≤ l1 + l2) :
    ∃ l1' l2', Layout ring (c.consume reql) tail l1' l2' ∧
      ∀ mem, (c.consume reql).bytes mem = (c.bytes mem).drop reql := by
  have hlt := h.size_le.trans_lt hsize
  have hlen1 : toSize c.len1 = l1 := by rw [h.len1, toSize_natCast (by omega)]
  unfold Spans.consume
  by_cases hle : reql ≤ l1
  · have hint : toInt (c.len1 - reql) = (l1 - reql : ℕ) := by
      rw [h.len1, show (l1 : ℤ) - reql = (l1 - reql : ℕ) by omega, toInt_natCast (by omega)]
    rw [if_pos (by rw [hlen1]; exact hle)]
    dsimp only
    rw [hint]
    by_cases hall : l1 = reql
    · subst hall
      rw [if_pos (by simp)]
      refine ⟨l2, 0, ⟨h.len2, rfl, h.tail_le, by have := h.size_le; omega, .inl ⟨rfl, ?_⟩⟩, ?_⟩
      · intro hne
        obtain ⟨-, -, -, -, hbuf2, htail⟩ := h.shape.resolve_left fun ha => hne ha.1
        show ring.base ≤ c.buf2 ∧ c.buf2 + l2 = _
        omega
      · intro mem
        rw [h.bytes_eq, Spans.bytes, h.len2, List.drop_left' (Memory.length_read mem _ _)]
        simp [Memory.read]
    · rw [if_neg (by omega)]
      refine ⟨l1 - reql, l2, ⟨rfl, h.len2, h.tail_le, by have := h.size_le; omega, ?_⟩, ?_⟩
      · rcases h.shape with ⟨hl2, hend⟩ | ⟨hl1, hl2, hbase, hend, hbuf2, htail⟩
        · obtain ⟨hbase, hend⟩ := hend (by omega)
          refine .inl ⟨hl2, fun _ => ?_⟩
          show ring.base ≤ c.buf1 + reql ∧ c.buf1 + reql + (l1 - reql) = _
          omega
        · refine .inr ⟨by omega, hl2, ?_, ?_, hbuf2, htail⟩
          · show ring.base ≤ c.buf1 + reql
            omega
          · show c.buf1 + reql + (l1 - reql) = _
            omega
      · intro mem
        rw [h.bytes_eq, Spans.bytes, h.len2, List.drop_append_of_le_length
          (by rw [Memory.length_read]; exact hle), Memory.drop_read mem _ hle]
        rfl
  · obtain ⟨-, hl2, -, -, hbuf2, htail⟩ := h.shape.resolve_left fun ha => by omega
    have hrest : (reql : ℤ) - c.len1 = (reql - l1 : ℕ) := by
      rw [h.len1]
      omega
    have hint : toInt (c.len2 - (reql - l1 : ℕ)) = (l2 - (reql - l1) : ℕ) := by
      rw [h.len2, show (l2 : ℤ) - (reql - l1 : ℕ) = (l2 - (reql - l1) : ℕ) by omega,
        toInt_natCast (by omega)]
    rw [if_neg (by rw [hlen1]; exact hle)]
    dsimp only
    rw [hrest, hint, show ((c.buf2 : ℤ) + (reql - l1 : ℕ)).toNat = c.buf2 + (reql - l1) by omega]
    refine ⟨l2 - (reql - l1), 0, ⟨rfl, rfl, h.tail_le, by have := h.size_le; omega,
      .inl ⟨rfl, fun _ => ?_⟩⟩, ?_⟩
    · show ring.base ≤ c.buf2 + (reql - l1) ∧ c.buf2 + (reql - l1) + (l2 - (reql - l1)) = _
      omega
    · intro mem
      rw [h.bytes_eq, Spans.bytes, List.drop_append, Memory.length_read,
        Memory.drop_read mem _ (show reql - l1 ≤ l2 by omega),
        List.drop_eq_nil_of_le (by rw [Memory.length_read]; omega)]
      simp [Memory.read]

end Layout

namespace SplitRun

variable {splitRead : SplitRead} {ring : Ring} {requests : List (List UInt8)} {t t' : SplitRun}

/-- The fields are read from the first bytes. -/
theorem headerOf_take {bytes : List UInt8} :
    Spans.headerOf (bytes.take sizeofRequest) = Spans.headerOf bytes := by
  refine requestHeader_congr fun x _ hx => ?_
  have hlt : x < sizeofRequest := by simpa using hx
  simp only [List.getD_eq_getElem?_getD, List.getElem?_take_of_lt hlt]

structure Inv (ring : Ring) (requests : List (List UInt8)) (t : SplitRun) : Prop where
  running : t.pc = .waiting ∨ t.pc = .consuming
  delivered : t.received <+: requests.flatten
  layout : ∃ l1 l2, Layout ring t.spans t.tail l1 l2
  released : t.released + (t.spans.bytes t.mem).length = t.received.length
  decoded : ∃ k, k ≤ requests.length ∧
    t.received = (requests.take k).flatten ++ t.spans.bytes t.mem ∧
    t.decoded = (requests.take k).map decodeRequest ∧
    (t.pc = .waiting → ∀ request, requests[k]? = some request →
      (t.spans.bytes t.mem).length < request.length)

theorem Inv.streams (hinv : Inv ring requests t) : Streams requests t :=
  ⟨hinv.running, hinv.decoded⟩

theorem inv_accepted (mem : Memory) (tail : ℕ) (htail : tail ≤ ring.size)
    (hwf : ∀ request ∈ requests, WellFormed request) : Inv ring requests (accepted mem tail) where
  running := .inl rfl
  delivered := List.nil_prefix
  layout := ⟨0, 0, rfl, rfl, htail, Nat.zero_le _, .inl ⟨rfl, fun hne => absurd rfl hne⟩⟩
  released := rfl
  decoded := by
    refine ⟨0, Nat.zero_le _, rfl, rfl, fun _ request hrequest => ?_⟩
    have hlength := (hwf request (List.mem_of_getElem? hrequest)).2.2
    show 0 < request.length
    rw [hlength]
    exact Nat.lt_of_lt_of_le (show 0 < sizeofRequest by decide) (Nat.le_add_right _ _)

/-- What `split_read` copies for the loop. -/
theorem header_eq (hcopies : splitRead.Copies) {l1 l2 : ℕ} (hlayout : Layout ring t.spans t.tail l1 l2)
    (hshort : sizeofRequest ≤ l1 + l2) :
    t.header splitRead = Spans.headerOf (t.spans.bytes t.mem) := by
  have hcopy := hcopies t.mem sizeofRequest t.spans 0 (by rw [hlayout.len1]; omega)
    (by rw [hlayout.len2]; omega) (by rw [hlayout.len1, hlayout.len2]; simpa using hshort)
  rw [header, hcopy, List.drop_zero, headerOf_take]

theorem complete_iff (hcopies : splitRead.Copies) (hsize : ring.size < 2 ^ 31) {l1 l2 : ℕ}
    (hlayout : Layout ring t.spans t.tail l1 l2) :
    t.complete splitRead = true ↔ sizeofRequest ≤ l1 + l2 ∧
      sizeofRequest + (Spans.headerOf (t.spans.bytes t.mem)).bodylen ≤ l1 + l2 := by
  rw [complete, decide_eq_true_iff, hlayout.available_eq hsize]
  refine and_congr_right fun hshort => ?_
  rw [header_eq hcopies hlayout hshort]

/-- The bytes of a stream behind the first `k` requests start with the next one, as
far as they go. -/
theorem next_request {received unread : List UInt8} {k : ℕ}
    (hdelivered : received <+: requests.flatten)
    (hlengths : ∀ request ∈ requests,
      request.length = sizeofRequest + (Spans.headerOf request).bodylen)
    (hreceived : received = (requests.take k).flatten ++ unread)
    (hshort : sizeofRequest ≤ unread.length) :
    ∃ request, requests[k]? = some request ∧ request ∈ requests ∧
      Spans.headerOf unread = Spans.headerOf request ∧
      (request.length ≤ unread.length → request <+: unread) := by
  have hfront : unread <+: (requests.drop k).flatten := by
    rw [hreceived] at hdelivered
    rw [← List.take_append_drop k requests, List.flatten_append] at hdelivered
    rw [List.take_append_drop] at hdelivered
    exact (List.prefix_append_right_inj _).mp hdelivered
  cases hdrop : requests.drop k with
  | nil =>
      rw [hdrop] at hfront
      rw [List.prefix_nil.mp hfront] at hshort
      exact absurd hshort (by decide)
  | cons request more =>
      have hget : requests[k]? = some request := by
        rw [← List.head?_drop, hdrop]
        rfl
      have hmem := List.mem_of_getElem? hget
      rw [hdrop, List.flatten_cons] at hfront
      obtain ⟨rest, hrest⟩ := hfront
      have hlength : sizeofRequest ≤ request.length := by
        rw [hlengths request hmem]
        exact Nat.le_add_right _ _
      refine ⟨request, hget, hmem, ?_, fun hle => ?_⟩
      · have htake := congrArg (List.take sizeofRequest) hrest
        rw [List.take_append_of_le_length hshort, List.take_append_of_le_length hlength] at htake
        rw [← headerOf_take, htake, headerOf_take]
      · exact List.prefix_of_prefix_length_le ⟨_, rfl⟩ ⟨_, hrest⟩ hle

theorem Inv.receive (hinv : Inv ring requests t) (hsize : ring.size < 2 ^ 31) {bytes : List UInt8}
    (hdelivers : t.received ++ bytes <+: requests.flatten)
    (hstep : t.step splitRead ring (.receive bytes) = some t') : Inv ring requests t' := by
  obtain ⟨⟨-, hn, hfit, hroom⟩, hnext⟩ := Option.ite_none_right_eq_some.mp hstep
  obtain ⟨l1, l2, hlayout⟩ := hinv.layout
  have hunread := hinv.released
  rw [hlayout.length_bytes] at hunread
  obtain ⟨c', l1', l2', happend, hlayout', hbytes⟩ :=
    hlayout.append hsize (t.start ring) rfl hn hfit (by omega)
  rw [happend] at hnext
  obtain rfl := Option.some.inj hnext
  obtain ⟨k, hk, hreceived, hdecoded, -⟩ := hinv.decoded
  refine ⟨.inr rfl, hdelivers, ⟨l1', l2', hlayout'⟩, ?_, k, hk, ?_, hdecoded, nofun⟩
  · show t.released + (c'.bytes _).length = (t.received ++ bytes).length
    rw [hbytes t.mem bytes rfl, List.length_append, List.length_append, hlayout.length_bytes]
    omega
  · show t.received ++ bytes = _ ++ c'.bytes _
    rw [hbytes t.mem bytes rfl, hreceived, List.append_assoc]

/-- A complete request is decoded as the stream has it. -/
theorem decodeNext_eq (hcopies : splitRead.Copies) {l1 l2 : ℕ}
    (hlayout : Layout ring t.spans t.tail l1 l2) {request : List UInt8}
    (hwf : WellFormed request) (hheader : t.header splitRead = Spans.headerOf request)
    (hfront : request <+: t.spans.bytes t.mem) :
    t.decodeNext splitRead = decodeRequest request := by
  obtain ⟨-, hlengths, hlength⟩ := hwf
  obtain ⟨rest, hrest⟩ := hfront
  have htotal : request.length ≤ l1 + l2 := by
    rw [← hlayout.length_bytes t.mem, ← hrest, List.length_append]
    exact Nat.le_add_right _ _
  have hread : ∀ off len, off + len ≤ request.length →
      splitRead t.mem len t.spans off = (request.drop off).take len := by
    intro off len hle
    rw [hcopies t.mem len t.spans off (by rw [hlayout.len1]; omega) (by rw [hlayout.len2]; omega)
      (by rw [hlayout.len1, hlayout.len2]; simp only [Int.toNat_natCast]; omega), ← hrest,
      List.drop_append_of_le_length (by omega),
      List.take_append_of_le_length (by rw [List.length_drop]; omega)]
  have hbodylen : (Spans.headerOf request).bodylen < 256 ^ 4 :=
    ntoh_lt (fun x => request.getD x 0) (0 + 8) 4
  have hvallen : ((Spans.headerOf request).bodylen + 2 ^ 32 - (Spans.headerOf request).extlen -
      (Spans.headerOf request).keylen) % 2 ^ 32 = request.length -
        (sizeofRequest + (Spans.headerOf request).extlen + (Spans.headerOf request).keylen) := by
    omega
  have hvalue : (request.drop (sizeofRequest + (Spans.headerOf request).extlen +
      (Spans.headerOf request).keylen)).take (request.length - (sizeofRequest +
        (Spans.headerOf request).extlen + (Spans.headerOf request).keylen)) =
      request.drop (sizeofRequest + (Spans.headerOf request).extlen +
        (Spans.headerOf request).keylen) :=
    List.take_of_length_le (by rw [List.length_drop])
  unfold decodeNext decodeRequest
  dsimp only
  rw [hheader, hread _ _ (by omega), hvallen, hread _ _ (by omega), hvalue]

theorem Inv.consume (hinv : Inv ring requests t) (hcopies : splitRead.Copies)
    (hsize : ring.size < 2 ^ 31) (hwf : ∀ request ∈ requests, WellFormed request)
    (hstep : t.step splitRead ring .consume = some t') : Inv ring requests t' := by
  obtain ⟨⟨hconsuming, hcomplete⟩, hnext⟩ := Option.ite_none_right_eq_some.mp hstep
  obtain ⟨l1, l2, hlayout⟩ := hinv.layout
  obtain ⟨hshort, hle⟩ := (complete_iff hcopies hsize hlayout).mp hcomplete
  have hlengthBytes := hlayout.length_bytes t.mem
  obtain ⟨k, hk, hreceived, hdecoded, -⟩ := hinv.decoded
  obtain ⟨request, hget, hmem, hheader, hfront⟩ := next_request hinv.delivered
    (fun request hmem => (hwf request hmem).2.2) hreceived (by rw [hlengthBytes]; exact hshort)
  have hrequest := hwf request hmem
  have hlength := hrequest.2.2
  rw [hheader] at hle
  have hfront := hfront (by omega)
  have hheader' : t.header splitRead = Spans.headerOf request :=
    (header_eq hcopies hlayout hshort).trans hheader
  have hnext' : (if (t.header splitRead).command = some .get ∨
      (t.header splitRead).command = some .set then
        some { t with
          spans := t.spans.consume (sizeofRequest + (t.header splitRead).bodylen)
          released := t.released + (sizeofRequest + (t.header splitRead).bodylen)
          decoded := t.decoded ++ [t.decodeNext splitRead] }
      else some { t with pc := .rejected }) = some t' := hnext
  rw [hheader', if_pos hrequest.1, ← hlength] at hnext'
  obtain rfl := Option.some.inj hnext'
  obtain ⟨l1', l2', hlayout', hbytes⟩ := hlayout.consume hsize (show request.length ≤ l1 + l2 by omega)
  obtain ⟨rest, hrest⟩ := hfront
  have hbytes' : (t.spans.consume request.length).bytes t.mem = rest := by
    rw [hbytes, ← hrest, List.drop_left]
  have hlt : k < requests.length := (List.getElem?_eq_some_iff.mp hget).1
  have htake : requests.take (k + 1) = requests.take k ++ [request] := by
    rw [List.take_add_one, hget]
    rfl
  have hreleased := hinv.released
  refine ⟨.inr hconsuming, hinv.delivered, ⟨l1', l2', hlayout'⟩, ?_, k + 1, hlt, ?_, ?_, ?_⟩
  · show t.released + request.length + ((t.spans.consume request.length).bytes t.mem).length = _
    rw [hbytes', ← hreleased, ← hrest, List.length_append, Nat.add_assoc]
  · show t.received = _ ++ (t.spans.consume request.length).bytes t.mem
    rw [hbytes', htake, List.flatten_append, hreceived, ← hrest]
    simp
  · show t.decoded ++ [t.decodeNext splitRead] = _
    rw [decodeNext_eq hcopies hlayout hrequest hheader' ⟨rest, hrest⟩, htake, hdecoded,
      List.map_append]
    rfl
  · intro hwaiting
    rw [show _ = RecvPc.waiting from hwaiting] at hconsuming
    cases hconsuming

theorem Inv.finish (hinv : Inv ring requests t) (hcopies : splitRead.Copies)
    (hsize : ring.size < 2 ^ 31) (hwf : ∀ request ∈ requests, WellFormed request)
    (hstep : t.step splitRead ring .finish = some t') : Inv ring requests t' := by
  obtain ⟨⟨-, hcomplete⟩, hnext⟩ := Option.ite_none_right_eq_some.mp hstep
  obtain rfl := Option.some.inj hnext
  obtain ⟨l1, l2, hlayout⟩ := hinv.layout
  obtain ⟨k, hk, hreceived, hdecoded, -⟩ := hinv.decoded
  refine ⟨.inl rfl, hinv.delivered, hinv.layout, hinv.released, k, hk, hreceived, hdecoded, ?_⟩
  intro _ request hget
  by_contra hlong
  have hle : request.length ≤ (t.spans.bytes t.mem).length := Nat.not_lt.mp hlong
  have hlength := (hwf request (List.mem_of_getElem? hget)).2.2
  have hshort : sizeofRequest ≤ (t.spans.bytes t.mem).length := by omega
  obtain ⟨request', hget', -, hheader, -⟩ := next_request hinv.delivered
    (fun request hmem => (hwf request hmem).2.2) hreceived hshort
  obtain rfl := Option.some.inj (hget.symm.trans hget')
  rw [hlayout.length_bytes] at hle hshort
  refine hcomplete ((complete_iff hcopies hsize hlayout).mpr ⟨hshort, ?_⟩)
  rw [hheader]
  omega

/-- Step lemma: in a buffer whose size an `int` can hold every step keeps the
invariant. -/
theorem Inv.step (hinv : Inv ring requests t) (hcopies : splitRead.Copies)
    (hsize : ring.size < 2 ^ 31) (hwf : ∀ request ∈ requests, WellFormed request)
    {action : SplitAction} (hdelivers : Delivers requests t action)
    (hstep : t.step splitRead ring action = some t') : Inv ring requests t' := by
  cases action with
  | receive bytes => exact hinv.receive hsize hdelivers hstep
  | consume => exact hinv.consume hcopies hsize hwf hstep
  | finish => exact hinv.finish hcopies hsize hwf hstep

/-- `split_read` as it is described. -/
def copySpans : SplitRead := fun mem len c off => ((c.bytes mem).drop off).take len

theorem copySpans_copies : SplitRead.Copies copySpans := fun _ _ _ _ _ _ _ => rfl

/-- A GET with a key of eight bytes. -/
def getRequest : List UInt8 :=
  [0x80, 0, 0, 8, 0, 0, 0, 0, 0, 0, 0, 8] ++ List.replicate 20 0

theorem wellFormed_getRequest : WellFormed getRequest :=
  ⟨.inl (by decide +kernel), by decide +kernel, by decide +kernel⟩

/-- Two requests in a buffer of forty bytes, the first in two pieces with the end of
the buffer between them. -/
def wrappedPieces : List SplitAction :=
  [.receive (getRequest.take 10), .finish, .receive (getRequest.drop 10 ++ getRequest.take 8),
    .consume, .finish, .receive ((getRequest.drop 8).take 10), .finish,
    .receive (getRequest.drop 18), .consume, .finish]

instance (requests : List (List UInt8)) (t : SplitRun) (action : SplitAction) :
    Decidable (Delivers requests t action) :=
  match action with
  | .receive bytes => inferInstanceAs (Decidable (t.received ++ bytes <+: requests.flatten))
  | .consume | .finish => isTrue trivial

/-- The first piece of a connection, as long as the buffer. -/
theorem receive_first {bytes : List UInt8} (hlength : 1 ≤ bytes.length) (mem : Memory) :
    ∃ t, (accepted mem 0).step copySpans ⟨0, bytes.length⟩ (.receive bytes) = some t ∧
      t.received = bytes ∧ t.decoded = [] ∧ t.spans = ⟨0, 0, toInt bytes.length, 0⟩ := by
  have hstart : (accepted mem 0).start ⟨0, bytes.length⟩ = 0 := ite_self 0
  have hfits : (accepted mem 0).pc = .waiting ∧ 1 ≤ bytes.length ∧
      (accepted mem 0).start ⟨0, bytes.length⟩ + bytes.length ≤ bytes.length ∧
        (accepted mem 0).received.length - (accepted mem 0).released + bytes.length ≤
          bytes.length := by
    rw [hstart]
    exact ⟨rfl, hlength, (Nat.zero_add _).le, (Nat.zero_add _).le⟩
  have happend : (accepted mem 0).spans.append (0 + (accepted mem 0).start ⟨0, bytes.length⟩)
      bytes.length = .ok ⟨0, 0, toInt bytes.length, 0⟩ := by
    rw [hstart]
    rfl
  refine ⟨{ accepted mem 0 with
    mem := mem.write (0 + (accepted mem 0).start ⟨0, bytes.length⟩) bytes
    tail := (accepted mem 0).start ⟨0, bytes.length⟩ + bytes.length
    received := [] ++ bytes
    spans := ⟨0, 0, toInt bytes.length, 0⟩
    pc := .consuming }, ?_, rfl, rfl, rfl⟩
  unfold SplitRun.step
  dsimp only
  rw [if_pos hfits, happend]
  rfl

theorem toInt_huge {n : ℕ} (hn : n = 2147483648) : (toInt n).toNat = 0 := by
  unfold toInt
  rw [Int.bmod_def]
  omega

theorem length_flatten_replicate (n : ℕ) (l : List UInt8) :
    (List.replicate n l).flatten.length = n * l.length := by
  induction n with
  | zero => simp
  | succ n ih => rw [List.replicate_succ, List.flatten_cons, List.length_append, ih, Nat.succ_mul,
      Nat.add_comm]

/-- A stream of requests as long as two gigabytes. -/
theorem exists_hugeStream : ∃ requests : List (List UInt8),
    (∀ request ∈ requests, WellFormed request) ∧ requests.flatten.length = 2147483648 := by
  refine ⟨List.replicate 67108864 getRequest, fun request hmem => ?_, ?_⟩
  · rw [List.eq_of_mem_replicate hmem]
    exact wellFormed_getRequest
  · have hrequest : getRequest.length = 32 := by decide
    rw [length_flatten_replicate, hrequest]

/-- Received as one piece, none of it is found in the spans: its length is no `int`. -/
theorem hugeStream_lost {requests : List (List UInt8)}
    (hlength : requests.flatten.length = 2147483648) :
    ¬Transition.Along (SplitRun.step copySpans ⟨0, requests.flatten.length⟩) (Streams requests)
      (accepted (fun _ => 0) 0) [.receive requests.flatten] := by
  intro halong
  obtain ⟨t, hstep, hreceived, hdecoded, hspans⟩ :=
    receive_first (show 1 ≤ requests.flatten.length by omega) fun _ => 0
  have hbytes : t.spans.bytes t.mem = [] := by
    rw [hspans, Spans.bytes, toInt_huge hlength]
    rfl
  obtain ⟨-, k, -, hsplit, hnone, -⟩ : Streams requests t := halong.2 t hstep
  have hk : requests.take k = [] := by
    rw [hdecoded] at hnone
    exact List.map_eq_nil_iff.mp hnone.symm
  have hempty : requests.flatten = [] := by
    rw [← hreceived, hsplit, hbytes, hk]
    rfl
  rw [hempty, List.length_nil] at hlength
  omega

end SplitRun

end ArmsTiering.Flexkvs
