import ElasticStream.Store.Segment

/-! # Recovery of the WAL

`Wal::scan_record` (store/src/io/wal.rs) reads the records of one segment from
a position on, stopping at a zero or overlong length, at a CRC mismatch, or at
the footer, then truncates the segment's cache to the recovered end.
`Wal::recover` scans the segments from the checkpoint until a scan finds the
last record. The records a scan visits are handed to the indexer; here they
are returned as a list. -/

namespace ElasticStream.Store
open ElasticStream.Codec

/-- A record the scan hands to the indexer: its WAL offset and payload. -/
structure Visit where
  walOffset : Nat
  payload : List UInt8
  deriving DecidableEq, Repr

section
variable (crc32 : List UInt8 → UInt32)

namespace LogSegment

/-- The loop of `scan_record` from `filePos`: whether the last record was
found, the file position reached and the records visited. -/
def scanLoop (filePos : Nat) (visited : List Visit) (fuel : Nat) :
    Nat → LogSegment → Except Abort (Bool × Nat × List Visit) × LogSegment
  | 0, s => (.error .outOfFuel, s)
  | steps + 1, s =>
    match s.readExactAt 4 filePos fuel with
    | (.error e, s) => (.error e, s)
    | (.ok metaBuf, s) =>
      let crc := fromBe32 metaBuf
      match s.readExactAt 4 (filePos + 4) fuel with
      | (.error e, s) => (.error e, s)
      | (.ok metaBuf, s) =>
        let lenType := fromBe32 metaBuf
        let len := (lenType >>> 8).toNat
        if filePos + 8 + len > s.size ∨ len = 0 then
          (.ok (true, filePos, visited), { s with status := .readWrite, written := filePos })
        else
          match s.readExactAt len (filePos + 8) fuel with
          | (.error e, s) => (.error e, s)
          | (.ok buf, s) =>
            if checksumRecord crc32 [buf] s.walOffset ≠ crc then
              (.ok (true, filePos, visited), { s with written := filePos, status := .readWrite })
            else
              match RecordType.tryFrom (lenType &&& 0xFF).toUInt8 with
              | none => (.error .panic, s)
              | some .zero =>
                (.ok (false, filePos + 8 + len, visited), { s with written := s.size, status := .read })
              | some _ =>
                scanLoop (filePos + 8 + len) (visited ++ [⟨s.walOffset + filePos, buf⟩]) fuel steps s

/-- `scan_record` from WAL position `pos`: whether the scan found the last
record, the new position and the records visited. -/
def scanRecord (s : LogSegment) (pos fuel : Nat) : Except Abort (Bool × Nat × List Visit) × LogSegment :=
  match scanLoop crc32 (pos - s.walOffset) [] fuel fuel s with
  | (.error e, s) => (.error e, s)
  | (.ok (lastFound, filePos, visited), s) =>
    match s.truncateTo s.written with
    | (.error e, s) => (.error e, s)
    | (.ok (), s) => (.ok (lastFound, s.walOffset + filePos, visited), s)

end LogSegment

/-- The loop of `Wal::recover` over the segments, with the scan still to do
(`needScan`), the position and the records visited so far. -/
def recoverLoop (offset fuel : Nat) :
    List LogSegment → Bool → Nat → List Visit → Except Abort (Nat × List Visit) × List LogSegment
  | [], _, pos, visited => (.ok (pos, visited), [])
  | s :: rest, needScan, pos, visited =>
    if s.walOffset + s.size ≤ offset then
      let (r, rest) := recoverLoop offset fuel rest needScan pos visited
      (r, { s with status := .read, written := s.size } :: rest)
    else if !needScan then
      let (r, rest) := recoverLoop offset fuel rest needScan pos visited
      (r, { s with written := 0, status := .readWrite } :: rest)
    else
      match s.scanRecord crc32 pos fuel with
      | (.error e, s) => (.error e, s :: rest)
      | (.ok (lastFound, pos, vs), s) =>
        let (r, rest) := recoverLoop offset fuel rest (!lastFound) pos (visited ++ vs)
        (r, s :: rest)

/-- `Wal::recover` from the checkpoint `offset`: the WAL position where writing
resumes and the records handed to the indexer. -/
def recover (segments : List LogSegment) (offset fuel : Nat) : Except Abort (Nat × List Visit) × List LogSegment :=
  let pos := match segments.head? with
    | some s => if offset < s.walOffset then s.walOffset else offset
    | none => offset
  recoverLoop crc32 offset fuel segments true pos []

/-- A segment past the checkpoint is scanned while the last record is not
found yet; a failed scan ends the recovery with its error. -/
theorem recoverLoop_scan_error {offset fuel pos : Nat} {s : LogSegment} {rest : List LogSegment}
    {visited : List Visit} {e : Abort} (h : ¬ s.walOffset + s.size ≤ offset)
    (hscan : (s.scanRecord crc32 pos fuel).1 = .error e) :
    (recoverLoop crc32 offset fuel (s :: rest) true pos visited).1 = .error e := by
  rw [recoverLoop, if_neg h, if_neg (by decide)]
  rcases hs : s.scanRecord crc32 pos fuel with ⟨r, s'⟩
  rw [hs] at hscan
  subst hscan
  rfl

/-- A scan that succeeds hands the recovery on to the next segment, which is
scanned only if this one did not find the last record. -/
theorem recoverLoop_scan_ok {offset fuel pos pos' : Nat} {s : LogSegment} {rest : List LogSegment}
    {visited vs : List Visit} {lastFound : Bool} (h : ¬ s.walOffset + s.size ≤ offset)
    (hscan : (s.scanRecord crc32 pos fuel).1 = .ok (lastFound, pos', vs)) :
    (recoverLoop crc32 offset fuel (s :: rest) true pos visited).1 =
      (recoverLoop crc32 offset fuel rest (!lastFound) pos' (visited ++ vs)).1 := by
  rw [recoverLoop, if_neg h, if_neg (by decide)]
  rcases hs : s.scanRecord crc32 pos fuel with ⟨r, s'⟩
  rw [hs] at hscan
  subst hscan
  rfl

end

end ElasticStream.Store
