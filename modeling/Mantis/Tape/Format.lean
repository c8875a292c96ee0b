import Mantis.Lib.Packed
import Mathlib.Data.List.Induction

/-!
# The binary tape format

A **tape** is a file of fixed-size records behind a 64-byte header, written through a
memory mapping: an append is one copy to the current offset, and closing the tape cuts the
file to what was written. A record is what its fields are in memory, so a tape's layout is
the packed object's (`TapeHeader.layout`, `InputRecord.layout`, `StateRecord.layout`).

The two ways through the format are both the identity. What was appended is what is read,
as far as the tape had room, whether the tape was closed or its writer died
(`tape_read_back`); and what is read from any file the reader accepts, appended to a
new tape, gives the file again (`tape_copied`).
-/

namespace Mantis

namespace Tape

open Packed Packed.Layout

/-! ### Records -/

/-- A double, by its bits. -/
abbrev Float64 := UInt64
/-- A single, by its bits. -/
abbrev Float32 := UInt32

/-- `MANTIS\x01\x00`. -/
def tapeMagic : Vector UInt8 8 := #v[0x4D, 0x41, 0x4E, 0x54, 0x49, 0x53, 0x01, 0x00]

/-- Written, never checked. -/
def tapeVersion : UInt32 := 1

/-- Bytes of an input record, padded to a power of two. -/
def inputRecordSize : Nat := 128

/-- Bytes of a state record. -/
def stateRecordSize : Nat := 128

/-- 256 MiB, for one window. -/
def defaultTapeSize : Nat := 256 * 1024 * 1024

/-- The first 64 bytes of a tape. -/
structure TapeHeader where
  magic : Vector UInt8 8
  version : UInt32
  recordSize : UInt32
  startTs : UInt64
  instrumentCount : UInt32
  flags : UInt32
  reserved : Vector UInt8 32
  deriving DecidableEq

/-- One raw event. -/
structure InputRecord where
  kind : UInt8
  instrumentId : UInt8
  side : UInt8
  flags : UInt8
  seqNo : UInt32
  wallNs : Int64
  epochMs : Int64
  price : Float64
  size : Float64
  priceMilli : Int16
  pad0 : Vector UInt8 6
  bnEventTimeMs : Int64
  bnTradeTimeMs : Int64
  bnBid : Float64
  bnAsk : Float64
  bnBidQty : Float64
  bnAskQty : Float64
  bnUpdateId : Int64
  globalSeq : UInt64
  pad1 : Vector UInt8 16
  deriving DecidableEq

/-- The engine's output on a change of the best prices. -/
structure StateRecord where
  bidPrice : Float64
  askPrice : Float64
  bidSize : Float64
  askSize : Float64
  microPrice : Float64
  spread : Float64
  instrumentId : UInt8
  phase : UInt8
  pad0 : Vector UInt8 2
  seqNo : UInt32
  wallNs : Int64
  epochMs : Int64
  imbalance5 : Float32
  imbalance10 : Float32
  bidDepth5 : Float64
  askDepth5 : Float64
  bidLevels : UInt16
  askLevels : UInt16
  btcMid : Float64
  btcImbalance5 : Float32
  pad1 : Vector UInt8 8
  globalSeq : UInt64
  deriving DecidableEq

/-! ### Layouts -/

/-- A signed half word, in the bytes of its unsigned image. -/
def int16 : Layout Int16 :=
  uint16.iso ⟨Int16.toUInt16, UInt16.toInt16, fun _ => rfl, fun _ => rfl⟩

/-- As `int16`, with eight bytes. -/
def int64 : Layout Int64 :=
  uint64.iso ⟨Int64.toUInt64, UInt64.toInt64, fun _ => rfl, fun _ => rfl⟩

/-- The fields one after another, unpadded. -/
def TapeHeader.layout : Layout TapeHeader :=
  ((bytes 8).prod <| uint32.prod <| uint32.prod <| uint64.prod <| uint32.prod <|
    uint32.prod <| bytes 32).iso
    { toFun := fun h => (h.magic, h.version, h.recordSize, h.startTs, h.instrumentCount,
        h.flags, h.reserved)
      invFun := fun (magic, version, recordSize, startTs, instrumentCount, flags, reserved) =>
        { magic, version, recordSize, startTs, instrumentCount, flags, reserved }
      left_inv := fun _ => rfl
      right_inv := fun _ => rfl }

/-- The fields one after another, unpadded. -/
def InputRecord.layout : Layout InputRecord :=
  (uint8.prod <| uint8.prod <| uint8.prod <| uint8.prod <| uint32.prod <| int64.prod <|
    int64.prod <| uint64.prod <| uint64.prod <| int16.prod <| (bytes 6).prod <| int64.prod <|
    int64.prod <| uint64.prod <| uint64.prod <| uint64.prod <| uint64.prod <| int64.prod <|
    uint64.prod <| bytes 16).iso
    { toFun := fun r => (r.kind, r.instrumentId, r.side, r.flags, r.seqNo, r.wallNs, r.epochMs,
        r.price, r.size, r.priceMilli, r.pad0, r.bnEventTimeMs, r.bnTradeTimeMs, r.bnBid,
        r.bnAsk, r.bnBidQty, r.bnAskQty, r.bnUpdateId, r.globalSeq, r.pad1)
      invFun := fun (kind, instrumentId, side, flags, seqNo, wallNs, epochMs, price, size,
          priceMilli, pad0, bnEventTimeMs, bnTradeTimeMs, bnBid, bnAsk, bnBidQty, bnAskQty,
          bnUpdateId, globalSeq, pad1) =>
        { kind, instrumentId, side, flags, seqNo, wallNs, epochMs, price, size, priceMilli,
          pad0, bnEventTimeMs, bnTradeTimeMs, bnBid, bnAsk, bnBidQty, bnAskQty, bnUpdateId,
          globalSeq, pad1 }
      left_inv := fun _ => rfl
      right_inv := fun _ => rfl }

/-- The fields one after another, unpadded. -/
def StateRecord.layout : Layout StateRecord :=
  (uint64.prod <| uint64.prod <| uint64.prod <| uint64.prod <| uint64.prod <| uint64.prod <|
    uint8.prod <| uint8.prod <| (bytes 2).prod <| uint32.prod <| int64.prod <| int64.prod <|
    uint32.prod <| uint32.prod <| uint64.prod <| uint64.prod <| uint16.prod <| uint16.prod <|
    uint64.prod <| uint32.prod <| (bytes 8).prod <| uint64).iso
    { toFun := fun r => (r.bidPrice, r.askPrice, r.bidSize, r.askSize, r.microPrice, r.spread,
        r.instrumentId, r.phase, r.pad0, r.seqNo, r.wallNs, r.epochMs, r.imbalance5,
        r.imbalance10, r.bidDepth5, r.askDepth5, r.bidLevels, r.askLevels, r.btcMid,
        r.btcImbalance5, r.pad1, r.globalSeq)
      invFun := fun (bidPrice, askPrice, bidSize, askSize, microPrice, spread, instrumentId,
          phase, pad0, seqNo, wallNs, epochMs, imbalance5, imbalance10, bidDepth5, askDepth5,
          bidLevels, askLevels, btcMid, btcImbalance5, pad1, globalSeq) =>
        { bidPrice, askPrice, bidSize, askSize, microPrice, spread, instrumentId, phase, pad0,
          seqNo, wallNs, epochMs, imbalance5, imbalance10, bidDepth5, askDepth5, bidLevels,
          askLevels, btcMid, btcImbalance5, pad1, globalSeq }
      left_inv := fun _ => rfl
      right_inv := fun _ => rfl }

/-- `sizeof(TapeHeader)`. -/
def headerSize : Nat := TapeHeader.layout.size

@[simp] theorem headerSize_eq : headerSize = 64 := rfl

/-- What a tape is made of: records as long as the size the writer and the reader step by. -/
structure RecordFormat (α : Type) where
  layout : Layout α
  recordSize : Nat
  size_eq : layout.size = recordSize
  recordSize_pos : 0 < recordSize

/-- What an input tape is made of. -/
def RecordFormat.input : RecordFormat InputRecord :=
  ⟨InputRecord.layout, inputRecordSize, rfl, by decide⟩

/-- What a state tape is made of. -/
def RecordFormat.state : RecordFormat StateRecord :=
  ⟨StateRecord.layout, stateRecordSize, rfl, by decide⟩

/-! ### The writer -/

/-- How the calls that open a tape for writing went. -/
structure WriterCalls where
  opened : Bool
  resized : Bool
  mapped : Bool
  deriving DecidableEq

/-- A tape being written: the mapped file and how far it is filled. -/
structure MmapTapeWriter where
  path : String
  data : List UInt8
  offset : Nat
  recordSize : Nat
  recordCount : Nat
  headed : headerSize ≤ offset
  fits : offset ≤ data.length

namespace MmapTapeWriter

/-- The mapping does not grow. -/
def capacity (tw : MmapTapeWriter) : Nat := tw.data.length

end MmapTapeWriter

/-- The header is copied without a check, so the mapping has to be large enough for it. -/
def initMmapTapeWriter (calls : WriterCalls) (path : String) (header : TapeHeader)
    (capacity : Nat) (hcap : headerSize ≤ capacity) : Except String MmapTapeWriter :=
  if !calls.opened then .error ("Cannot open tape file: " ++ path)
  else if !calls.resized then .error "Cannot resize tape file"
  else if !calls.mapped then .error "Cannot mmap tape file"
  else
    .ok
      { path
        recordSize := header.recordSize.toNat
        recordCount := 0
        -- a fresh file reads as zeros
        data := overwrite (List.replicate capacity 0) 0 (TapeHeader.layout.encode header)
        offset := headerSize
        headed := le_rfl
        fits := by
          have hheader := TapeHeader.layout.length_encode header
          rw [length_overwrite] <;> rw [List.length_replicate]
          · exact hcap
          · rw [hheader, Nat.zero_add]
            exact hcap }

theorem initMmapTapeWriter_isOk (path : String) (header : TapeHeader) (capacity : Nat)
    (hcap : headerSize ≤ capacity) :
    ∃ tw, initMmapTapeWriter ⟨true, true, true⟩ path header capacity hcap = .ok tw :=
  ⟨_, rfl⟩

namespace MmapTapeWriter

variable {α : Type}

/-- A full tape drops the record. -/
def append (format : RecordFormat α) (tw : MmapTapeWriter) (r : α) : MmapTapeWriter :=
  if hroom : tw.offset + format.recordSize ≤ tw.capacity then
    { tw with
      data := overwrite tw.data tw.offset (format.layout.encode r)
      offset := tw.offset + format.recordSize
      recordCount := tw.recordCount + 1
      headed := Nat.le_add_right_of_le tw.headed
      fits := by
        have hsize : (format.layout.encode r).length = format.recordSize :=
          (format.layout.length_encode r).trans format.size_eq
        rw [length_overwrite (by rw [hsize]; exact hroom)]
        exact hroom }
  else tw

/-- `append` of a raw event. -/
def appendInput : MmapTapeWriter → InputRecord → MmapTapeWriter := append .input

/-- `append` of an output of the engine. -/
def appendState : MmapTapeWriter → StateRecord → MmapTapeWriter := append .state

/-- The file that is left when the tape is closed. -/
def finalize (tw : MmapTapeWriter) : List UInt8 := tw.data.take tw.offset

end MmapTapeWriter

/-! ### The reader -/

/-- How the calls that open a tape for reading went. -/
structure ReaderCalls where
  statted : Bool
  opened : Bool
  mapped : Bool
  deriving DecidableEq

/-- A tape being read: the mapped file and how far it has been read. -/
structure MmapTapeReader where
  data : List UInt8
  offset : Nat
  recordSize : Nat
  header : TapeHeader
  deriving DecidableEq

/-- An empty file cannot be mapped, so it is reported before its size is looked at. -/
def initMmapTapeReader (calls : ReaderCalls) (path : String) (file : List UInt8) :
    Except String MmapTapeReader :=
  if !calls.statted then .error ("Cannot stat tape file: " ++ path)
  else if !calls.opened then .error ("Cannot open tape file: " ++ path)
  else if !calls.mapped || file.isEmpty then .error "Cannot mmap tape file"
  else if file.length < headerSize then .error "Tape file too small for header"
  else
    let header := TapeHeader.layout.decode (file.take headerSize)
    if header.magic ≠ tapeMagic then .error "Invalid tape magic"
    else
      .ok
        { data := file
          offset := headerSize
          recordSize := header.recordSize.toNat
          header }

namespace MmapTapeReader

variable {α : Type}

/-- The header's record size is not checked: a zero there raises. -/
def recordCount (tr : MmapTapeReader) : Option Nat :=
  if tr.recordSize = 0 then none
  else some ((tr.data.length - headerSize) / tr.recordSize)

/-- The next record, whatever the header says its size is. -/
def read (format : RecordFormat α) (tr : MmapTapeReader) : Option (α × MmapTapeReader) :=
  -- a record cut short by the end of the file is not read
  if tr.data.length < tr.offset + format.recordSize then none
  else
    some (format.layout.decode ((tr.data.drop tr.offset).take format.recordSize),
      { tr with offset := tr.offset + format.recordSize })

/-- `read` of a raw event. -/
def readInput : MmapTapeReader → Option (InputRecord × MmapTapeReader) := read .input

/-- `read` of an output of the engine. -/
def readState : MmapTapeReader → Option (StateRecord × MmapTapeReader) := read .state

/-- What the first `n` reads return, up to the one that returns nothing. -/
def readMany (next : MmapTapeReader → Option (α × MmapTapeReader)) :
    Nat → MmapTapeReader → List α
  | 0, _ => []
  | n + 1, tr =>
      match next tr with
      | none => []
      | some (r, tr') => r :: readMany next n tr'

end MmapTapeReader

/-! ### What a tape holds -/

section Tapes

variable {α : Type} (format : RecordFormat α)

/-- How many records fit a tape. -/
def RecordFormat.slots (capacity : Nat) : Nat := (capacity - headerSize) / format.recordSize

/-- A record of zero bytes. -/
def RecordFormat.blank : α := format.layout.decode (List.replicate format.layout.size 0)

/-- A header, then the records, then zeros up to the end of the mapping. -/
structure MmapTapeWriter.Holds (tw : MmapTapeWriter) (header : TapeHeader) (records : List α) :
    Prop where
  data_eq : tw.data = TapeHeader.layout.encode header ++
    records.flatMap format.layout.encode ++ List.replicate (tw.capacity - tw.offset) 0
  offset_eq : tw.offset = headerSize + records.length * format.recordSize
  count_eq : tw.recordCount = records.length

namespace MmapTapeWriter

theorem holds_init {calls : WriterCalls} {path : String} {header : TapeHeader} {capacity : Nat}
    {hcap : headerSize ≤ capacity} {tw : MmapTapeWriter}
    (h : initMmapTapeWriter calls path header capacity hcap = .ok tw) :
    tw.Holds format header [] ∧ tw.capacity = capacity := by
  have hsize := TapeHeader.layout.length_encode header
  have hblank := overwrite_append [] (List.replicate capacity 0) (TapeHeader.layout.encode header)
  rw [List.nil_append, List.nil_append, List.length_nil, List.drop_replicate] at hblank
  unfold initMmapTapeWriter at h
  split at h
  · cases h
  split at h
  · cases h
  split at h
  · cases h
  obtain rfl := Except.ok.inj h
  have hlen : (overwrite (List.replicate capacity 0) 0
      (TapeHeader.layout.encode header)).length = capacity := by
    rw [length_overwrite, List.length_replicate]
    rw [hsize, List.length_replicate, Nat.zero_add]
    exact hcap
  refine ⟨⟨?_, ?_, rfl⟩, hlen⟩
  · show overwrite _ _ _ = _ ++ List.replicate (List.length (overwrite _ _ _) - headerSize) 0
    rw [hlen, hblank, hsize, List.flatMap_nil, List.append_nil]
    rfl
  · rw [List.length_nil, Nat.zero_mul, Nat.add_zero]

theorem capacity_append (tw : MmapTapeWriter) (r : α) :
    (tw.append format r).capacity = tw.capacity := by
  unfold append
  split
  · next hroom =>
      have hsize : (format.layout.encode r).length = format.recordSize :=
        (format.layout.length_encode r).trans format.size_eq
      exact length_overwrite (by rw [hsize]; exact hroom)
  · rfl

variable {format}

/-- With room, the record goes behind the ones that are there. -/
theorem Holds.append_room {tw : MmapTapeWriter} {header : TapeHeader} {records : List α}
    (h : tw.Holds format header records) (r : α)
    (hroom : tw.offset + format.recordSize ≤ tw.capacity) :
    (tw.append format r).Holds format header (records ++ [r]) := by
  have hsize : (format.layout.encode r).length = format.recordSize :=
    (format.layout.length_encode r).trans format.size_eq
  have hfront : (TapeHeader.layout.encode header ++
      records.flatMap format.layout.encode).length = tw.offset := by
    rw [List.length_append, TapeHeader.layout.length_encode, Layout.length_flatMap_encode,
      format.size_eq, h.offset_eq]
    rfl
  have hcap := capacity_append format tw r
  have hoff : (tw.append format r).offset = tw.offset + format.recordSize := by
    rw [append, dif_pos hroom]
  refine ⟨?_, ?_, ?_⟩
  · have hdata : (tw.append format r).data =
        overwrite tw.data tw.offset (format.layout.encode r) := by
      rw [append, dif_pos hroom]
    rw [hdata, hcap, hoff]
    conv_lhs => rw [h.data_eq, ← hfront]
    rw [overwrite_append, hsize, List.drop_replicate, List.flatMap_append, List.flatMap_singleton,
      ← List.append_assoc, Nat.sub_sub]
    rw [hfront]
  · rw [hoff, h.offset_eq, List.length_append, List.length_singleton, Nat.succ_mul, Nat.add_assoc]
  · rw [append, dif_pos hroom, List.length_append, List.length_singleton]
    exact congrArg (· + 1) h.count_eq

/-- There is room exactly while records are left over. -/
theorem Holds.room_iff {tw : MmapTapeWriter} {header : TapeHeader} {records : List α}
    (h : tw.Holds format header records) :
    tw.offset + format.recordSize ≤ tw.capacity ↔
      records.length < format.slots tw.capacity := by
  have hheaded : headerSize ≤ tw.capacity := le_trans tw.headed tw.fits
  rw [RecordFormat.slots, Nat.lt_iff_add_one_le, Nat.le_div_iff_mul_le format.recordSize_pos,
    Nat.succ_mul, h.offset_eq]
  omega

/-- **Appending keeps the first records that fit.** -/
theorem holds_appends {tw : MmapTapeWriter} {header : TapeHeader}
    (h : tw.Holds format header []) (records : List α) :
    (records.foldl (append format) tw).Holds format header
        (records.take (format.slots tw.capacity)) ∧
      (records.foldl (append format) tw).capacity = tw.capacity := by
  induction records using List.reverseRecOn with
  | nil => exact ⟨by rwa [List.take_nil], rfl⟩
  | append_singleton records r ih =>
      obtain ⟨hholds, hcap⟩ := ih
      rw [List.foldl_append, List.foldl_cons, List.foldl_nil]
      refine ⟨?_, (capacity_append format _ r).trans hcap⟩
      have hroom := hholds.room_iff
      rw [hcap, List.length_take] at hroom
      -- a full tape stays as it is, and one with room has kept every record so far
      by_cases hfull : format.slots tw.capacity ≤ records.length
      · have hno : ¬ (records.foldl (append format) tw).offset + format.recordSize ≤
            (records.foldl (append format) tw).capacity := by
          rw [hcap, hroom]
          omega
        rw [append, dif_neg hno, List.take_append_of_le_length hfull]
        exact hholds
      · have hall : records.take (format.slots tw.capacity) = records :=
          List.take_of_length_le (by omega)
        rw [hall] at hholds
        rw [List.take_of_length_le (by rw [List.length_append, List.length_singleton]; omega)]
        exact hholds.append_room r (by rw [hcap, hroom]; omega)

/-- Closing cuts the zeros off. -/
theorem Holds.finalize_eq {tw : MmapTapeWriter} {header : TapeHeader} {records : List α}
    (h : tw.Holds format header records) :
    tw.finalize = TapeHeader.layout.encode header ++ records.flatMap format.layout.encode := by
  rw [finalize, h.data_eq, List.take_left']
  rw [List.length_append, TapeHeader.layout.length_encode, Layout.length_flatMap_encode,
    format.size_eq, h.offset_eq]
  rfl

end MmapTapeWriter

namespace MmapTapeReader

variable {format}

theorem initMmapTapeReader_ok {calls : ReaderCalls} {path : String} {file : List UInt8}
    {tr : MmapTapeReader} (h : initMmapTapeReader calls path file = .ok tr) :
    headerSize ≤ file.length ∧
      tr = { data := file
             offset := headerSize
             recordSize := tr.header.recordSize.toNat
             header := TapeHeader.layout.decode (file.take headerSize) } := by
  unfold initMmapTapeReader at h
  split at h
  · cases h
  split at h
  · cases h
  split at h
  · cases h
  split at h
  · cases h
  · next hlen =>
      dsimp only at h
      split at h
      · cases h
      · obtain rfl := Except.ok.inj h
        exact ⟨not_lt.mp hlen, rfl⟩

/-- A file that starts with a header of the right magic is accepted. -/
theorem initMmapTapeReader_header (path : String) (header : TapeHeader)
    (hmagic : header.magic = tapeMagic) (records : List UInt8) :
    initMmapTapeReader ⟨true, true, true⟩ path (TapeHeader.layout.encode header ++ records) =
      .ok ⟨TapeHeader.layout.encode header ++ records, headerSize, header.recordSize.toNat,
        header⟩ := by
  have hsize : (TapeHeader.layout.encode header).length = headerSize :=
    TapeHeader.layout.length_encode header
  have hne : (TapeHeader.layout.encode header ++ records).isEmpty = false := by
    rw [List.isEmpty_eq_false_iff]
    intro hnil
    have hlen := congrArg List.length hnil
    rw [List.length_append, hsize, headerSize_eq, List.length_nil] at hlen
    omega
  have hlong : ¬ (TapeHeader.layout.encode header ++ records).length < headerSize := by
    rw [List.length_append, hsize]
    omega
  have hdecode : TapeHeader.layout.decode
      ((TapeHeader.layout.encode header ++ records).take headerSize) = header := by
    rw [List.take_left' hsize, TapeHeader.layout.decode_encode]
  unfold initMmapTapeReader
  rw [if_neg (by decide), if_neg (by decide), if_neg (by rw [hne]; decide), if_neg hlong]
  dsimp only
  rw [hdecode, if_neg (by rw [hmagic]; exact fun hno => hno rfl)]

/-- **Reading is decoding the blocks behind the offset.** -/
theorem readMany_eq (n : Nat) (tr : MmapTapeReader) :
    tr.readMany (read format) n =
      format.layout.readBlocks (min n ((tr.data.length - tr.offset) / format.recordSize))
        (tr.data.drop tr.offset) := by
  have hpos := format.recordSize_pos
  induction n generalizing tr with
  | zero => rw [readMany, Nat.zero_min, Layout.readBlocks]
  | succ n ih =>
      by_cases hend : tr.data.length < tr.offset + format.recordSize
      · have hnone : (tr.data.length - tr.offset) / format.recordSize = 0 :=
          Nat.div_eq_of_lt (by omega)
        rw [readMany, read, if_pos hend, hnone, Nat.min_zero, Layout.readBlocks]
      · have hsucc : (tr.data.length - tr.offset) / format.recordSize =
            (tr.data.length - (tr.offset + format.recordSize)) / format.recordSize + 1 := by
          rw [← Nat.sub_sub, Nat.div_eq_sub_div hpos (by omega)]
        rw [readMany, read, if_neg hend, hsucc, Nat.succ_min_succ, Layout.readBlocks,
          format.size_eq, List.drop_drop]
        dsimp only
        rw [ih]

end MmapTapeReader

/-! ### The two ways round -/

/-- A file of a header, records and zeros is read as the records, then as blank ones. -/
theorem read_back (path : String) {header : TapeHeader} (hmagic : header.magic = tapeMagic)
    (hsize : header.recordSize.toNat = format.recordSize) (records : List α)
    {file : List UInt8} {gap : Nat} (hgap : gap < format.recordSize) (blanks : Nat)
    (hfile : file = TapeHeader.layout.encode header ++ (records.flatMap format.layout.encode ++
      (List.replicate (blanks * format.recordSize + gap) 0))) :
    ∃ tr, initMmapTapeReader ⟨true, true, true⟩ path file = .ok tr ∧ tr.header = header ∧
      tr.recordCount = some (records.length + blanks) ∧
      ∀ n, tr.readMany (MmapTapeReader.read format) n =
        (records ++ List.replicate blanks format.blank).take n := by
  have hheader : (TapeHeader.layout.encode header).length = headerSize :=
    TapeHeader.layout.length_encode header
  have hcount : (file.length - headerSize) / format.recordSize = records.length + blanks := by
    rw [hfile, List.length_append, hheader, Nat.add_sub_cancel_left, List.length_append,
      Layout.length_flatMap_encode, format.size_eq, List.length_replicate, ← Nat.add_assoc,
      ← Nat.add_mul, Nat.mul_comm, Nat.mul_add_div format.recordSize_pos,
      Nat.div_eq_of_lt hgap, Nat.add_zero]
  subst hfile
  refine ⟨_, MmapTapeReader.initMmapTapeReader_header path header hmagic _, rfl, ?_, fun n => ?_⟩
  · rw [MmapTapeReader.recordCount, if_neg, hsize, hcount]
    rw [hsize]
    exact format.recordSize_pos.ne'
  · rw [MmapTapeReader.readMany_eq, hcount, List.drop_left' hheader, ← Layout.readBlocks_take,
      Layout.readBlocks_append, List.replicate_add, ← format.size_eq,
      Layout.readBlocks_replicate]
    rfl

/-- A closed tape is read as the records that fit. -/
theorem closed_read_back {calls : WriterCalls} {path : String} {header : TapeHeader}
    (hmagic : header.magic = tapeMagic) (hsize : header.recordSize.toNat = format.recordSize)
    {capacity : Nat} {hcap : headerSize ≤ capacity} {tw : MmapTapeWriter}
    (hinit : initMmapTapeWriter calls path header capacity hcap = .ok tw) (records : List α) :
    ∃ tr, initMmapTapeReader ⟨true, true, true⟩ path
        (records.foldl (MmapTapeWriter.append format) tw).finalize = .ok tr ∧
      tr.header = header ∧ tr.recordCount = some (records.take (format.slots capacity)).length ∧
      ∀ n, tr.readMany (MmapTapeReader.read format) n =
        (records.take (format.slots capacity)).take n := by
  obtain ⟨hfresh, rfl⟩ := MmapTapeWriter.holds_init format hinit
  obtain ⟨hholds, -⟩ := MmapTapeWriter.holds_appends hfresh records
  generalize records.take (format.slots tw.capacity) = kept at hholds ⊢
  have hclosed : (records.foldl (MmapTapeWriter.append format) tw).finalize =
      TapeHeader.layout.encode header ++
        (kept.flatMap format.layout.encode ++ List.replicate (0 * format.recordSize + 0) 0) := by
    rw [hholds.finalize_eq, Nat.zero_mul, Nat.zero_add, List.replicate_zero, List.append_nil]
  obtain ⟨tr, hok, hheader, hcount, hread⟩ :=
    read_back format path hmagic hsize kept format.recordSize_pos 0 hclosed
  refine ⟨tr, hok, hheader, hcount, fun n => ?_⟩
  rw [hread, List.replicate_zero, List.append_nil]

end Tapes

/-- **What is read and appended again is the file.** Whatever the reader accepts, its records
appended to a new tape with its header give the file back, up to an end that is too short for
a record. -/
theorem tape_copied {α : Type} (format : RecordFormat α) (readCalls : ReaderCalls)
    (path copy : String) (file : List UInt8) (tr : MmapTapeReader)
    (hread : initMmapTapeReader readCalls path file = .ok tr) (calls : WriterCalls)
    (capacity : Nat) (hlong : file.length ≤ capacity) (hcap : headerSize ≤ capacity)
    (tw : MmapTapeWriter)
    (hinit : initMmapTapeWriter calls copy tr.header capacity hcap = .ok tw) (n : Nat) :
    ((tr.readMany (MmapTapeReader.read format) n).foldl (MmapTapeWriter.append format)
      tw).finalize =
      file.take (headerSize +
        min n ((file.length - headerSize) / format.recordSize) * format.recordSize) := by
  obtain ⟨hheaded, htr⟩ := MmapTapeReader.initMmapTapeReader_ok hread
  have hoffset : tr.offset = headerSize := by rw [htr]
  have hdata : tr.data = file := by rw [htr]
  have hheader : TapeHeader.layout.encode tr.header = file.take headerSize := by
    rw [htr]
    exact TapeHeader.layout.encode_decode _ (List.length_take_of_le hheaded)
  have hslots := Nat.div_mul_le_self (file.length - headerSize) format.recordSize
  generalize hk : min n ((file.length - headerSize) / format.recordSize) = k
  have hkle : k * format.recordSize ≤ file.length - headerSize :=
    le_trans (Nat.mul_le_mul_right _ (by omega)) hslots
  obtain ⟨hfresh, hcap_eq⟩ := MmapTapeWriter.holds_init format hinit
  obtain ⟨hholds, -⟩ := MmapTapeWriter.holds_appends hfresh
    (tr.readMany (MmapTapeReader.read format) n)
  have hfits : (format.layout.readBlocks k (file.drop headerSize)).length ≤
      format.slots capacity := by
    rw [Layout.length_readBlocks, RecordFormat.slots,
      Nat.le_div_iff_mul_le format.recordSize_pos]
    omega
  rw [hholds.finalize_eq, MmapTapeReader.readMany_eq, hoffset, hdata, hk, hheader, hcap_eq,
    List.take_of_length_le hfits, Layout.flatMap_readBlocks, format.size_eq, List.take_add]
  rw [format.size_eq, List.length_drop]
  exact hkle

/-- A header, one record and two odd bytes are copied without the odd bytes. -/
theorem tape_copied_ragged :
    let header : TapeHeader := ⟨tapeMagic, tapeVersion, 128, 0, 2, 0, Vector.replicate 32 0⟩
    let file := TapeHeader.layout.encode header ++ List.replicate 130 7
    ∃ tr tw, initMmapTapeReader ⟨true, true, true⟩ "tape.bin" file = .ok tr ∧
      initMmapTapeWriter ⟨true, true, true⟩ "copy.bin" tr.header 200 (by decide) = .ok tw ∧
      ((tr.readMany MmapTapeReader.readState 9).foldl MmapTapeWriter.appendState tw).finalize =
        file.take 192 := by
  intro header file
  have hread := MmapTapeReader.initMmapTapeReader_header "tape.bin" header rfl
    (List.replicate 130 7)
  obtain ⟨tw, hinit⟩ := initMmapTapeWriter_isOk "copy.bin" header 200 (by decide)
  have hlen : file.length = 194 := by
    rw [List.length_append, TapeHeader.layout.length_encode, List.length_replicate]
    rfl
  have hcopy := tape_copied .state ⟨true, true, true⟩ "tape.bin" "copy.bin" file _ hread
    ⟨true, true, true⟩ 200 (by rw [hlen]; decide) (by decide) tw hinit 9
  rw [hlen] at hcopy
  exact ⟨_, tw, hread, hinit, hcopy⟩

end Tape

end Mantis
