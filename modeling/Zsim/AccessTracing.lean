import Zsim.MemoryHierarchy
import Mathlib.Data.List.Basic
import Mathlib.Data.UInt

/-!
# Access traces

A trace file holds a packet table of packed records. The writer collects them
in a buffer of one chunk and appends the buffer when it is full; the reader
fetches one chunk at a time. Each cuts the table at its own places, and the
cursor that meets the end of a chunk also tells the end of the trace. A packed
record has two bytes for the child of an access, which has four.
-/

namespace Zsim.AccessTracing

open MemoryHierarchy

/-- `AccessRecord`. -/
structure AccessRecord where
  lineAddr : UInt64
  reqCycle : UInt64
  latency : UInt32
  childId : UInt32
  type : AccessType
  deriving DecidableEq, Repr

/-- `PackedAccessRecord`. -/
structure PackedAccessRecord where
  lineAddr : UInt64
  reqCycle : UInt64
  latency : UInt32
  childId : UInt16
  type : UInt16
  deriving DecidableEq, Repr

/-- The value of an access type. -/
def typeCode : AccessType → UInt8
  | .GETS => 0
  | .GETX => 1
  | .PUTS => 2
  | .PUTX => 3

/-- The access type of a value; a file holds no value above 3. -/
def typeOf (code : UInt16) : AccessType :=
  if code = 0 then .GETS else if code = 1 then .GETX else if code = 2 then .PUTS else .PUTX

/-- The record that `AccessTraceWriter::write` stores. -/
def AccessRecord.pack (acc : AccessRecord) : PackedAccessRecord :=
  ⟨acc.lineAddr, acc.reqCycle, acc.latency, acc.childId.toUInt16, (typeCode acc.type).toUInt16⟩

/-- The record that `AccessTraceReader::read` returns. -/
def PackedAccessRecord.unpack (pr : PackedAccessRecord) : AccessRecord :=
  ⟨pr.lineAddr, pr.reqCycle, pr.latency, pr.childId.toUInt32, typeOf pr.type⟩

/-- A trace file: the packet table "accs" and the two attributes. -/
structure TraceFile where
  accs : List PackedAccessRecord
  numChildren : UInt32
  finished : Bool
  deriving DecidableEq, Repr

/-- The assertions and panics, and the accesses outside a buffer or a table. -/
inductive TraceFailure where
  /-- "Trace file %s unfinished (halted simulation?)" -/
  | unfinished
  /-- An index past the end of `buf`. -/
  | bufferOverrun
  /-- Packets past the end of the table. -/
  | missingPackets
  /-- `cur < max`, in `read` -/
  | nothingLeft
  /-- `cur == max` -/
  | chunkNotRead
  /-- `curFrameRecord == numRecords` -/
  | wrongCount
  /-- `cur < max`, in `write` -/
  | noRoom
  /-- The reader still has records after as many reads as it was given. -/
  | endless
  deriving DecidableEq, Repr

/-- `PT_CHUNKSIZE`. -/
def chunkSize : ℕ := 1024 * 256

/-- What `gm_calloc` fills a buffer with. -/
def zeroRecord : PackedAccessRecord := ⟨0, 0, 0, 0, 0⟩

/-- `H5PTread_packets`: so many packets from `start` on, into the buffer. -/
def readPackets (accs : List PackedAccessRecord) (start n : ℕ) (buf : List PackedAccessRecord) :
    Except TraceFailure (List PackedAccessRecord) :=
  if buf.length < n then .error .bufferOverrun
  else if accs.length < start + n then .error .missingPackets
  else .ok ((accs.drop start).take n ++ buf.drop n)

/-- `AccessTraceReader`, with the file it reads. -/
structure AccessTraceReader where
  buf : List PackedAccessRecord
  cur : ℕ
  max : ℕ
  file : TraceFile
  curFrameRecord : ℕ
  numRecords : ℕ
  numChildren : UInt32

namespace AccessTraceReader

/-- The constructor. -/
def new (file : TraceFile) : Except TraceFailure AccessTraceReader :=
  if file.finished = false then .error .unfinished
  else
    let numRecords := file.accs.length
    let max := min chunkSize numRecords
    let r : AccessTraceReader := ⟨List.replicate max zeroRecord, 0, max, file, 0, numRecords, file.numChildren⟩
    if max = 0 then .ok r
    else (readPackets file.accs 0 max r.buf).map fun buf => { r with buf := buf }

/-- `empty`. -/
def empty (r : AccessTraceReader) : Bool := r.cur == r.max

/-- `nextChunk`. -/
def nextChunk (r : AccessTraceReader) : Except TraceFailure AccessTraceReader :=
  if r.cur ≠ r.max then .error .chunkNotRead
  else
    let curFrameRecord := r.curFrameRecord + r.max
    if curFrameRecord < r.numRecords then
      let max := min chunkSize (r.numRecords - curFrameRecord)
      (readPackets r.file.accs curFrameRecord max r.buf).map fun buf =>
        { r with curFrameRecord := curFrameRecord, cur := 0, max := max, buf := buf }
    else if curFrameRecord ≠ r.numRecords then .error .wrongCount
    else .ok { r with curFrameRecord := curFrameRecord }

/-- `read`. -/
def read (r : AccessTraceReader) : Except TraceFailure (AccessRecord × AccessTraceReader) :=
  if ¬ r.cur < r.max then .error .nothingLeft
  else
    match r.buf[r.cur]? with
    | none => .error .bufferOverrun
    | some pr =>
      let r := { r with cur := r.cur + 1 }
      if r.cur = r.max then r.nextChunk.map fun r => (pr.unpack, r) else .ok (pr.unpack, r)

/-- Read until `empty`, at most so many records. -/
def readAll : ℕ → AccessTraceReader → Except TraceFailure (List AccessRecord)
  | reads, r =>
    if r.empty = true then .ok []
    else
      match reads with
      | 0 => .error .endless
      | reads + 1 =>
        match r.read with
        | .error e => .error e
        | .ok (acc, r) => (readAll reads r).map (acc :: ·)

end AccessTraceReader

/-- `AccessTraceWriter`, with the file it writes. -/
structure AccessTraceWriter where
  buf : List PackedAccessRecord
  cur : ℕ
  max : ℕ
  file : TraceFile

namespace AccessTraceWriter

/-- The constructor. -/
def new (numChildren : UInt32) : AccessTraceWriter :=
  ⟨List.replicate chunkSize zeroRecord, 0, chunkSize, ⟨[], numChildren, false⟩⟩

/-- `dump`: append the first `cur` elements of the buffer. -/
def dump (w : AccessTraceWriter) (cont : Bool) : Except TraceFailure AccessTraceWriter :=
  if w.buf.length < w.cur then .error .bufferOverrun
  else
    let file := { w.file with accs := w.file.accs ++ w.buf.take w.cur }
    if cont = true then .ok { w with file := file, cur := 0 }
    else .ok ⟨[], 0, 0, { file with finished := true }⟩

/-- `write`. -/
def write (w : AccessTraceWriter) (acc : AccessRecord) : Except TraceFailure AccessTraceWriter :=
  if w.cur < w.buf.length then
    let w := { w with buf := w.buf.set w.cur acc.pack, cur := w.cur + 1 }
    if w.cur = w.max then
      match w.dump true with
      | .error e => .error e
      | .ok w => if w.cur < w.max then .ok w else .error .noRoom
    else .ok w
  else .error .bufferOverrun

end AccessTraceWriter

section Packing

/-- Packing loses nothing but the upper half of the child. -/
theorem unpack_pack (acc : AccessRecord) :
    acc.pack.unpack = { acc with childId := acc.childId.toUInt16.toUInt32 } := by
  obtain ⟨lineAddr, reqCycle, latency, childId, type⟩ := acc
  cases type <;> rfl

theorem unpack_pack_iff (acc : AccessRecord) : acc.pack.unpack = acc ↔ acc.childId.toNat < 2 ^ 16 := by
  have hchild : acc.childId.toUInt16.toUInt32 = acc.childId ↔ acc.childId.toNat < 2 ^ 16 := by
    rw [← UInt32.toNat_inj, UInt16.toNat_toUInt32, UInt32.toNat_toUInt16]
    omega
  rw [unpack_pack, ← hchild]
  constructor
  · exact fun h => congrArg AccessRecord.childId h
  · intro h
    rw [h]

end Packing

section Reading

open AccessTraceReader

variable {r : AccessTraceReader} {p : PackedAccessRecord} {rest : List PackedAccessRecord}

/-- The records the reader has still to return. -/
structure Reads (r : AccessTraceReader) (rest : List PackedAccessRecord) : Prop where
  count : r.numRecords = r.file.accs.length
  room : r.buf.length = min chunkSize r.numRecords
  /-- The cursor is at the end of the trace, or within a chunk. -/
  cursor : (r.cur = r.max ∧ rest = []) ∨
    (r.cur < r.max ∧ r.max ≤ chunkSize ∧ r.curFrameRecord + r.max ≤ r.numRecords ∧
      r.buf.take r.max = (r.file.accs.drop r.curFrameRecord).take r.max ∧
      rest = r.file.accs.drop (r.curFrameRecord + r.cur))

theorem readPackets_ok {accs buf : List PackedAccessRecord} {start n : ℕ} (hbuf : n ≤ buf.length)
    (haccs : start + n ≤ accs.length) :
    readPackets accs start n buf = .ok ((accs.drop start).take n ++ buf.drop n) := by
  rw [readPackets, if_neg (not_lt.mpr hbuf), if_neg (not_lt.mpr haccs)]

theorem new_spec {file : TraceFile} (hfinished : file.finished = true) :
    ∃ r, new file = .ok r ∧ Reads r file.accs ∧ r.file = file ∧ r.numChildren = file.numChildren := by
  have hnot : ¬ file.finished = false := by rw [hfinished]; exact Bool.noConfusion
  simp only [new, if_neg hnot]
  by_cases hmax : min chunkSize file.accs.length = 0
  · have hnil : file.accs = [] := List.length_eq_zero_iff.mp (by unfold chunkSize at hmax; omega)
    refine ⟨_, if_pos hmax, ⟨rfl, List.length_replicate, .inl ⟨hmax.symm, hnil⟩⟩, rfl, rfl⟩
  · rw [if_neg hmax, readPackets_ok (by rw [List.length_replicate]) (by omega)]
    refine ⟨_, rfl, ⟨rfl, ?_, .inr ⟨Nat.pos_of_ne_zero hmax, min_le_left _ _, by simp, ?_, rfl⟩⟩, rfl, rfl⟩
    · simp
    · simp only [List.drop_zero]
      rw [List.take_left' (by simp)]

theorem Reads.empty_iff (h : Reads r rest) : r.empty = true ↔ rest = [] := by
  rw [AccessTraceReader.empty, beq_iff_eq]
  rcases h.cursor with ⟨hcur, hnil⟩ | ⟨hcur, -, hmax, -, hrest⟩
  · exact ⟨fun _ => hnil, fun _ => hcur⟩
  · refine ⟨fun heq => absurd heq hcur.ne, fun hnil => ?_⟩
    have hlen := congrArg List.length (hrest.symm.trans hnil)
    have hcount := h.count
    rw [List.length_drop, List.length_nil] at hlen
    omega

/-- A read returns the next record, and fetches the next chunk when this one is done. -/
theorem Reads.read (h : Reads r (p :: rest)) : ∃ r', r.read = .ok (p.unpack, r') ∧ Reads r' rest ∧
    r'.numChildren = r.numChildren ∧ r'.file = r.file := by
  obtain ⟨hcount, hroom, ⟨-, hnil⟩ | ⟨hcur, hchunk, hmax, hbuf, hrest⟩⟩ := h
  · cases hnil
  · have hget : r.buf[r.cur]? = some p := by
      have htake : (r.buf.take r.max)[r.cur]? = ((r.file.accs.drop r.curFrameRecord).take r.max)[r.cur]? := by
        rw [hbuf]
      rw [List.getElem?_take_of_lt hcur, List.getElem?_take_of_lt hcur, List.getElem?_drop] at htake
      rw [htake, ← List.head?_drop, ← hrest]
      rfl
    have htail : rest = r.file.accs.drop (r.curFrameRecord + (r.cur + 1)) := by
      rw [← Nat.add_assoc, ← List.tail_drop, ← hrest]
      rfl
    simp only [AccessTraceReader.read, if_neg (not_not.mpr hcur), hget]
    by_cases hlast : r.cur + 1 = r.max
    · rw [if_pos hlast]
      simp only [nextChunk, hlast, ne_eq, not_true_eq_false, if_false]
      rw [hlast] at htail
      by_cases hmore : r.curFrameRecord + r.max < r.numRecords
      · -- the next chunk is no longer than the first, which the buffer was made for
        have hfits : min chunkSize (r.numRecords - (r.curFrameRecord + r.max)) ≤ r.buf.length := by
          rw [hroom]
          omega
        have hthere : r.curFrameRecord + r.max + min chunkSize (r.numRecords - (r.curFrameRecord + r.max)) ≤
            r.file.accs.length := by omega
        rw [if_pos hmore, readPackets_ok hfits hthere]
        refine ⟨_, rfl, ⟨hcount, ?_, .inr ⟨?_, min_le_left _ _, ?_, ?_, ?_⟩⟩, rfl, rfl⟩
        · simp only [List.length_append, List.length_take, List.length_drop]
          omega
        · unfold chunkSize
          dsimp only
          omega
        · dsimp only
          omega
        · dsimp only
          rw [List.take_left' (by rw [List.length_take, List.length_drop]; omega)]
        · exact htail
      · rw [if_neg hmore, if_neg (by omega)]
        refine ⟨_, rfl, ⟨hcount, hroom, .inl ⟨rfl, ?_⟩⟩, rfl, rfl⟩
        rw [htail]
        exact List.drop_eq_nil_of_le (by omega)
    · rw [if_neg hlast]
      exact ⟨_, rfl, ⟨hcount, hroom, .inr ⟨by dsimp only; omega, hchunk, hmax, hbuf, htail⟩⟩, rfl, rfl⟩

/-- Reading until empty returns the whole table. -/
theorem Reads.readAll (h : Reads r rest) (reads : ℕ) (hreads : rest.length ≤ reads) :
    r.readAll reads = .ok (rest.map PackedAccessRecord.unpack) := by
  induction rest generalizing r reads with
  | nil =>
    have hempty := h.empty_iff.mpr rfl
    cases reads with
    | zero => exact if_pos hempty
    | succ reads => exact if_pos hempty
  | cons p rest ih =>
    obtain ⟨r', hread, h', -⟩ := h.read
    cases reads with
    | zero => exact absurd hreads (Nat.not_succ_le_zero _)
    | succ reads =>
      rw [AccessTraceReader.readAll, if_neg fun hempty => List.cons_ne_nil p rest (h.empty_iff.mp hempty), hread]
      simp only [ih h' reads (Nat.le_of_succ_le_succ hreads)]
      rfl

end Reading

section Writing

open AccessTraceWriter

variable {w : AccessTraceWriter} {out : List PackedAccessRecord}

/-- The records the writer has been given, in the file and in the buffer. -/
structure Writes (w : AccessTraceWriter) (out : List PackedAccessRecord) : Prop where
  room : w.buf.length = chunkSize
  max : w.max = chunkSize
  cursor : w.cur < chunkSize
  contents : w.file.accs ++ w.buf.take w.cur = out

theorem writes_new (numChildren : UInt32) : Writes (new numChildren) [] :=
  ⟨List.length_replicate, rfl, (by decide : 0 < chunkSize), rfl⟩

theorem Writes.dump (h : Writes w out) (cont : Bool) : w.dump cont = .ok
    (if cont = true then { w with file := { w.file with accs := out }, cur := 0 }
    else ⟨[], 0, 0, { w.file with accs := out, finished := true }⟩) := by
  have hfits : ¬ w.buf.length < w.cur := by
    rw [h.room]
    exact lt_asymm h.cursor
  rw [AccessTraceWriter.dump, if_neg hfits, h.contents]
  cases cont <;> rfl

/-- A write stores the packed record, and appends the buffer when it is full. -/
theorem Writes.write (h : Writes w out) (acc : AccessRecord) : ∃ w', w.write acc = .ok w' ∧
    Writes w' (out ++ [acc.pack]) ∧ w'.file.numChildren = w.file.numChildren := by
  have hcur : w.cur < w.buf.length := by
    rw [h.room]
    exact h.cursor
  have hout : w.file.accs ++ (w.buf.set w.cur acc.pack).take (w.cur + 1) = out ++ [acc.pack] := by
    rw [List.take_add_one, List.take_set_of_le le_rfl, List.getElem?_set_self hcur, ← List.append_assoc, h.contents]
    rfl
  simp only [AccessTraceWriter.write, if_pos hcur, h.max]
  by_cases hfull : w.cur + 1 = chunkSize
  · have hroom : ¬ (w.buf.set w.cur acc.pack).length < w.cur + 1 := by
      rw [List.length_set]
      omega
    rw [if_pos hfull]
    simp only [AccessTraceWriter.dump, if_neg hroom, if_true]
    refine ⟨_, if_pos (by decide), ⟨?_, rfl, by dsimp only; decide, ?_⟩, rfl⟩
    · rw [List.length_set, h.room]
    · simpa only [List.take_zero, List.append_nil] using hout
  · have hcursor := h.cursor
    rw [if_neg hfull]
    refine ⟨_, rfl, ⟨?_, rfl, ?_, hout⟩, rfl⟩
    · rw [List.length_set, h.room]
    · dsimp only
      omega

/-- Any number of writes. -/
theorem Writes.writeAll (h : Writes w out) (records : List AccessRecord) :
    ∃ w', records.foldlM AccessTraceWriter.write w = .ok w' ∧
      Writes w' (out ++ records.map AccessRecord.pack) ∧ w'.file.numChildren = w.file.numChildren := by
  induction records generalizing w out with
  | nil => exact ⟨w, rfl, by rwa [List.map_nil, List.append_nil], rfl⟩
  | cons acc records ih =>
    obtain ⟨w₁, hwrite, h₁, hchildren₁⟩ := h.write acc
    obtain ⟨w₂, hrest, h₂, hchildren₂⟩ := ih h₁
    refine ⟨w₂, ?_, ?_, hchildren₂.trans hchildren₁⟩
    · rw [List.foldlM_cons, hwrite]
      exact hrest
    · rwa [List.map_cons, ← List.singleton_append, ← List.append_assoc]

end Writing

section RoundTrip

/-- The file of a writer that is given the records and then dumped for good. -/
def written (numChildren : UInt32) (records : List AccessRecord) : Except TraceFailure TraceFile :=
  match records.foldlM AccessTraceWriter.write (.new numChildren) with
  | .error e => .error e
  | .ok w => (w.dump false).map AccessTraceWriter.file

/-- Write the records, and read the file until it is empty. -/
def roundTrip (numChildren : UInt32) (records : List AccessRecord) : Except TraceFailure (List AccessRecord) :=
  match written numChildren records with
  | .error e => .error e
  | .ok file =>
    match AccessTraceReader.new file with
    | .error e => .error e
    | .ok r => r.readAll r.numRecords

/-- The file holds the packed records. -/
theorem written_eq (numChildren : UInt32) (records : List AccessRecord) :
    written numChildren records = .ok ⟨records.map AccessRecord.pack, numChildren, true⟩ := by
  obtain ⟨w, hwrites, h, hchildren⟩ := (writes_new numChildren).writeAll records
  simp only [written, hwrites, h.dump, Bool.false_eq_true, if_false, Except.map, hchildren, List.nil_append]
  rfl

/-- No access leaves a buffer, and what comes back is each record unpacked. -/
theorem roundTrip_eq (numChildren : UInt32) (records : List AccessRecord) :
    roundTrip numChildren records = .ok (records.map fun acc => acc.pack.unpack) := by
  obtain ⟨r, hnew, hreads, hfile, -⟩ :=
    new_spec (show (⟨records.map AccessRecord.pack, numChildren, true⟩ : TraceFile).finished = true from rfl)
  have hcount : (records.map AccessRecord.pack).length ≤ r.numRecords := by
    rw [hreads.count, hfile]
  simp only [roundTrip, written_eq, hnew, hreads.readAll _ hcount, List.map_map]
  rfl

/-- For every number of children and all records, what is read is what was
written just when no child has more than sixteen bits. -/
theorem roundTrip_iff (numChildren : UInt32) (records : List AccessRecord) :
    roundTrip numChildren records = .ok records ↔ ∀ acc ∈ records, acc.childId.toNat < 2 ^ 16 := by
  rw [roundTrip_eq, Except.ok.injEq, ← List.map_id' records, List.map_map, List.map_inj_left]
  simp only [List.map_id', Function.comp_apply, unpack_pack_iff]

/-- Of 65537 children the last comes back as the first. -/
theorem last_child_lost : (∀ acc ∈ [(⟨1, 0, 0, 65536, .GETS⟩ : AccessRecord)], acc.childId < 65537) ∧
    roundTrip 65537 [⟨1, 0, 0, 65536, .GETS⟩] = .ok [⟨1, 0, 0, 0, .GETS⟩] ∧
    roundTrip 65537 [⟨1, 0, 0, 65536, .GETS⟩] ≠ .ok [⟨1, 0, 0, 65536, .GETS⟩] := by
  have hback : roundTrip 65537 [⟨1, 0, 0, 65536, .GETS⟩] = .ok [⟨1, 0, 0, 0, .GETS⟩] := by
    rw [roundTrip_eq]
    rfl
  refine ⟨by decide, hback, ?_⟩
  rw [hback]
  decide

end RoundTrip

end Zsim.AccessTracing
