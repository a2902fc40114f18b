import EmbedTSDB.Memory.Partition
import EmbedTSDB.Memory.Encode

/-! The disk partition: `meta.json` maps each series key to the offset of its encoded points
in the memory-mapped data file and to their number, and a query decodes that many points,
skipping those before `start` and stopping at the first at or after `end`. The decoder is
declared outside the modelled files and is a parameter. A disk partition written from a
series by `encodeAllPoints` answers every range with the stored points of the range in
timestamp order; the memory partition's own query answers with the in-order points alone, so
the flush adds exactly the out-of-order points of the range to the answer. -/
namespace EmbedTSDB

/-- `diskMetric`: where the encoded series of one key starts in the data file, its bounds and
its number of points. -/
structure DiskMetric where
  name : List UInt8
  offset : Int
  minTimestamp : Int
  maxTimestamp : Int
  numDataPoints : Int
  deriving DecidableEq, Repr

/-- `meta`, decoded from `meta.json`; `createdAt` in nanoseconds after the epoch. -/
structure Meta where
  minTimestamp : Int
  maxTimestamp : Int
  numDataPoints : Int
  metrics : List UInt8 → Option DiskMetric
  createdAt : Int

/-- `diskPartition`: `fileOpen` is whether `f` is set, `mappedFile` is nil once unmapped, and
the retention is in nanoseconds. -/
structure DiskPartition where
  dirPath : String
  meta : Meta
  fileOpen : Bool
  mappedFile : Option (List UInt8)
  retention : Int

/-- The errors of the disk partition, each as the source builds it. -/
inductive DiskError
  /-- `ErrNoDataPoints`, a sentinel declared outside the modelled files. -/
  | noDataPoints
  /-- `fmt.Errorf("this partition is expired: %w", ErrNoDataPoints)`. -/
  | expired
  /-- `fmt.Errorf("failed to seek: %w", err)`. -/
  | seek (err : String)
  /-- `fmt.Errorf("failed to generate decoder for metric %q in %q: %w", name, d.dirPath, err)`. -/
  | newDecoder (name : List UInt8) (dirPath : String) (err : String)
  /-- `fmt.Errorf("failed to decode point of metric %q in %q: %w", name, d.dirPath, err)`. -/
  | decodePoint (name : List UInt8) (dirPath : String) (err : String)
  /-- `fmt.Errorf("can't insert rows into disk partition")`. -/
  | insertRows
  /-- `fmt.Errorf("failed to unmap memory: %w", err)`. -/
  | unmap (err : String)
  /-- `fmt.Errorf("failed to close file descriptor: %w", err)`. -/
  | close (err : String)
  /-- `fmt.Errorf("failed to remove all files inside the partition (%d~%d): %w",
  d.minTimestamp(), d.maxTimestamp(), err)`. -/
  | removeAll (minTimestamp maxTimestamp : Int) (err : String)
  /-- `fmt.Errorf("dir path is required")`. -/
  | dirPathRequired
  /-- `errInvalidPartition`: `errors.New("invalid partition")`. -/
  | invalidPartition
  /-- `fmt.Errorf("failed to read data file: %w", err)`. -/
  | readDataFile (err : String)
  /-- `fmt.Errorf("failed to fetch file info: %w", err)`. -/
  | fileInfo (err : String)
  /-- `fmt.Errorf("failed to perform mmap: %w", err)`. -/
  | mmap (err : String)
  /-- `fmt.Errorf("failed to read metadata: %w", err)`. -/
  | readMetadata (err : String)
  /-- `fmt.Errorf("failed to decode metadata: %w", err)`. -/
  | decodeMetadata (err : String)
  deriving DecidableEq, Repr

/-- `errors.Is(err, ErrNoDataPoints)` for the errors the partition builds itself. -/
def DiskError.isNoDataPoints : DiskError → Bool
  | .noDataPoints | .expired => true
  | _ => false

/-- The errors `openDiskPartition` returns once the data file is mapped. -/
def DiskError.isMetadataError : DiskError → Bool
  | .readMetadata _ | .decodeMetadata _ => true
  | _ => false

/-- How `os.Stat` of `meta.json` fails: `errors.Is(err, os.ErrNotExist)` or otherwise. -/
inductive StatError
  | notExist
  | other (err : String)
  deriving DecidableEq, Repr

/-- The outcomes of the file-system calls `openDiskPartition` may make, declared outside the
modelled files: `os.Stat` of `meta.json`, `os.Open` of the data file, `f.Stat()` with the
file's size, `syscall.Mmap`, `os.Open` of `meta.json`, and the JSON decoding of it. -/
structure OpenCalls where
  statMeta : Option StatError
  openData : Option String
  fileStat : Except String Int
  mmap : Except String (List UInt8)
  openMeta : Option String
  decodeMeta : Except String Meta

/-- What the process holds of a partition's files: the data file's descriptor and its
mapping. The metadata file's descriptor is closed by the deferred `mf.Close()`. -/
inductive Resource
  | dataFile
  | mapping
  deriving DecidableEq, Repr

/-- `openDiskPartition(dirPath, retention)`, with what the process holds when it returns.
`f.Close()` runs on the errors between the open of the data file and its mapping; an error
of `os.Stat` other than a missing file is ignored. -/
def openDiskPartition (sys : OpenCalls) (dirPath : String) (retention : Int) :
    List Resource × Except DiskError DiskPartition :=
  if dirPath = "" then ([], .error .dirPathRequired)
  else if sys.statMeta = some .notExist then ([], .error .invalidPartition)
  else
    match sys.openData with
    | some err => ([], .error (.readDataFile err))
    | none =>
      match sys.fileStat with
      | .error err => ([], .error (.fileInfo err))
      | .ok size =>
        if size = 0 then ([], .error .noDataPoints)
        else
          match sys.mmap with
          | .error err => ([], .error (.mmap err))
          | .ok mapped =>
            match sys.openMeta, sys.decodeMeta with
            | some err, _ => ([.dataFile, .mapping], .error (.readMetadata err))
            | none, .error err => ([.dataFile, .mapping], .error (.decodeMetadata err))
            | none, .ok m =>
              ([.dataFile, .mapping], .ok ⟨dirPath, m, true, some mapped, retention⟩)

/-- `newSeriesDecoder` over a reader and the decoder's `decodePoint`, declared outside the
modelled files: a decoder state built from the bytes the reader will read, and a step that
decodes the next point or fails. -/
structure SeriesDecoding (D : Type) where
  newSeriesDecoder : List UInt8 → Except String D
  decodePoint : D → Except String (DataPoint × D)

/-- The decoder state `dcd` decodes `points` in order, one `decodePoint` call each. -/
def SeriesDecoding.Yields {D : Type} (dec : SeriesDecoding D) : D → List DataPoint → Prop
  | _, [] => True
  | dcd, p :: ps => ∃ dcd', dec.decodePoint dcd = .ok (p, dcd') ∧ dec.Yields dcd' ps

/-- The outcomes of the system calls `clean` may make, declared outside the modelled files:
`syscall.Munmap`, `f.Close()` and `os.RemoveAll`, `none` for success. -/
structure CleanCalls where
  munmap : Option String
  close : Option String
  removeAll : Option String

namespace DiskPartition

def minTimestamp (d : DiskPartition) : Int := d.meta.minTimestamp

def maxTimestamp (d : DiskPartition) : Int := d.meta.maxTimestamp

def size (d : DiskPartition) : Int := d.meta.numDataPoints

/-- A disk partition is immutable. -/
def active (_ : DiskPartition) : Bool := false

/-- `expired()` at the clock reading `now`: `time.Since(createdAt) > retention`. -/
def expired (d : DiskPartition) (now : Int) : Bool := decide (now - d.meta.createdAt > d.retention)

def insertRows (_ : DiskPartition) (_ : List Row) : Except DiskError (List Row) := .error .insertRows

/-- `clean()`: unmap the data file if it is mapped, close it if it is open, then remove the
partition's directory, stopping at the first failure. -/
def clean (sys : CleanCalls) (d : DiskPartition) : DiskPartition × Except DiskError Unit :=
  match d.mappedFile.isSome, sys.munmap with
  | true, some err => (d, .error (.unmap err))
  | _, _ =>
    let d := { d with mappedFile := none }
    match d.fileOpen, sys.close with
    | true, some err => (d, .error (.close err))
    | _, _ =>
      let d := { d with fileOpen := false }
      match sys.removeAll with
      | some err => (d, .error (.removeAll d.minTimestamp d.maxTimestamp err))
      | none => (d, .ok ())

/-- What a partition owns of the process's resources. -/
def held (d : DiskPartition) : List Resource :=
  (if d.fileOpen then [.dataFile] else []) ++ (if d.mappedFile.isSome then [.mapping] else [])

/-- A `clean` whose unmap and close succeed leaves the partition owning nothing, whether or
not the removal of its directory fails. -/
theorem clean_held (d : DiskPartition) {sys : CleanCalls} (hunmap : sys.munmap = none)
    (hclose : sys.close = none) : (d.clean sys).1.held = [] := by
  unfold clean
  split
  · simp_all
  · dsimp only
    split
    · simp_all
    · split <;> rfl

variable {D : Type} (dec : SeriesDecoding D)

/-- The decoding loop of `selectDataPoints` for the series `name`: `n` calls of
`decodePoint`, skipping points before `start` and stopping at the first at or after `end`. -/
def decodeLoop (name : List UInt8) (dirPath : String) (start «end» : Int) :
    Nat → D → Except DiskError (List DataPoint)
  | 0, _ => .ok []
  | n + 1, dcd =>
    match dec.decodePoint dcd with
    | .error err => .error (.decodePoint name dirPath err)
    | .ok (point, dcd) =>
      if point.timestamp < start then decodeLoop name dirPath start «end» n dcd
      else if point.timestamp ≥ «end» then .ok []
      else (point :: ·) <$> decodeLoop name dirPath start «end» n dcd

/-- `selectDataPoints(metric, labels, start, end)` at the clock reading `now`: the expiry
check, the key's entry in the metadata, the seek of a reader over the mapped file to its
offset (`bytes.Reader` refuses a negative position), the decoder, and the decoding loop over
`numDataPoints` points. -/
def selectDataPoints (sortSlice : NameSort) (now : Int) (d : DiskPartition) (metric : List UInt8)
    (labels : List Label) (start «end» : Int) : Except DiskError (List DataPoint) :=
  if d.expired now then .error .expired
  else
    let name := marshalMetricName sortSlice metric labels
    match d.meta.metrics name with
    | none => .error .noDataPoints
    | some mt =>
      if mt.offset < 0 then .error (.seek "bytes.Reader.Seek: negative position")
      else
        match dec.newSeriesDecoder ((d.mappedFile.getD []).drop mt.offset.toNat) with
        | .error err => .error (.newDecoder name d.dirPath err)
        | .ok dcd => decodeLoop dec name d.dirPath start «end» mt.numDataPoints.toNat dcd

/-- On a decoder that yields `points`, the loop reads at most as many points as it yields and
returns what the filtering loop over `points` returns. -/
theorem decodeLoop_of_yields (name : List UInt8) (dirPath : String) (start «end» : Int)
    {points : List DataPoint} {dcd : D} (h : dec.Yields dcd points) {n : Nat}
    (hn : n ≤ points.length) :
    decodeLoop dec name dirPath start «end» n dcd =
      (selectLoop start «end» n points).mapError fun _ => .noDataPoints := by
  induction points generalizing n dcd with
  | nil =>
    obtain rfl : n = 0 := by simpa using hn
    rfl
  | cons p ps ih =>
    obtain ⟨dcd', hdec, hrest⟩ := h
    cases n with
    | zero => rfl
    | succ n =>
      have hn' : n ≤ ps.length := by simpa using hn
      simp only [decodeLoop, hdec, selectLoop]
      split_ifs
      · exact ih hrest hn'
      · rfl
      · rw [ih hrest hn']
        cases selectLoop start «end» n ps <;> rfl

/-- Whatever the decoder decodes, an answer of the loop is drawn from the points it decoded,
in their order, and lies in `[start, end)`. -/
theorem decodeLoop_sound (name : List UInt8) (dirPath : String) (start «end» : Int) {n : Nat}
    {dcd : D} {r : List DataPoint} (h : decodeLoop dec name dirPath start «end» n dcd = .ok r) :
    ∃ ys, dec.Yields dcd ys ∧ ys.length ≤ n ∧ r.Sublist ys ∧
      ∀ p ∈ r, start ≤ p.timestamp ∧ p.timestamp < «end» := by
  induction n generalizing dcd r with
  | zero =>
    cases h
    exact ⟨[], trivial, le_rfl, List.Sublist.slnil, fun _ hp => absurd hp (List.not_mem_nil _)⟩
  | succ n ih =>
    simp only [decodeLoop] at h
    split at h
    · cases h
    rename_i point dcd' hdec
    split_ifs at h with hs he
    · obtain ⟨ys, hy, hlen, hsub, hin⟩ := ih h
      exact ⟨point :: ys, ⟨dcd', hdec, hy⟩, by simp [hlen], hsub.cons point, hin⟩
    · cases h
      exact ⟨[point], ⟨dcd', hdec, trivial⟩, by simp, List.nil_sublist _,
        fun _ hp => absurd hp (List.not_mem_nil _)⟩
    · obtain ⟨r', hr', rfl⟩ : ∃ r', decodeLoop dec name dirPath start «end» n dcd' = .ok r' ∧
          r = point :: r' := by
        cases hrec : decodeLoop dec name dirPath start «end» n dcd' <;>
          simp only [hrec, Functor.map, Except.map] at h <;> cases h
        exact ⟨_, rfl, rfl⟩
      obtain ⟨ys, hy, hlen, hsub, hin⟩ := ih hr'
      refine ⟨point :: ys, ⟨dcd', hdec, hy⟩, by simp [hlen], hsub.cons_cons point, ?_⟩
      rintro p (_ | ⟨_, hp⟩)
      · exact ⟨by omega, by omega⟩
      · exact hin p hp

/-- A query of a key the metadata maps to a series at a non-negative offset, whose decoder
yields the series' points sorted by timestamp, returns the points of `[start, end)` in order.
-/
theorem selectDataPoints_of_sorted (sortSlice : NameSort) (now : Int) {d : DiskPartition}
    {metric : List UInt8} {labels : List Label} {mt : DiskMetric} {points : List DataPoint}
    {dcd : D} (hexp : d.expired now = false)
    (hkey : d.meta.metrics (marshalMetricName sortSlice metric labels) = some mt)
    (hoff : 0 ≤ mt.offset) (hnum : mt.numDataPoints = points.length)
    (hdec : dec.newSeriesDecoder ((d.mappedFile.getD []).drop mt.offset.toNat) = .ok dcd)
    (hyields : dec.Yields dcd points) (hsorted : points.Sorted fun p q => p.timestamp ≤ q.timestamp)
    (start «end» : Int) :
    d.selectDataPoints dec sortSlice now metric labels start «end» =
      .ok (points.filter fun p => decide (start ≤ p.timestamp ∧ p.timestamp < «end»)) := by
  have hn : mt.numDataPoints.toNat = points.length := by omega
  simp only [selectDataPoints, hexp, hkey, if_neg (show ¬ mt.offset < 0 by omega), hdec, hn,
    Bool.false_eq_true, ↓reduceIte]
  rw [decodeLoop_of_yields dec _ _ start «end» hyields le_rfl, selectLoop_of_sorted start «end» hsorted]
  rfl

end DiskPartition

/-- Everything `openDiskPartition` can return: an error of a step before the mapping with
nothing held, a metadata error with the data file open and mapped, or a partition owning
both. -/
theorem openDiskPartition_cases (sys : OpenCalls) (dirPath : String) (retention : Int) :
    ((openDiskPartition sys dirPath retention).1 = [] ∧
      ∃ e, (openDiskPartition sys dirPath retention).2 = .error e ∧ e.isMetadataError = false) ∨
    ((openDiskPartition sys dirPath retention).1 = [.dataFile, .mapping] ∧
      ((∃ e, (openDiskPartition sys dirPath retention).2 = .error e ∧ e.isMetadataError = true) ∨
        ∃ m mapped, (openDiskPartition sys dirPath retention).2 =
          .ok ⟨dirPath, m, true, some mapped, retention⟩)) := by
  unfold openDiskPartition
  split_ifs <;> (repeat' split) <;> simp [DiskError.isMetadataError]

/-- The loops of `encodeAllPoints` call the encoder on the points of `flushOrder`, first to
last. -/
theorem foldlM_record (l acc : List DataPoint) :
    l.foldlM (fun acc p => (.ok (acc ++ [p]) : Except Unit (List DataPoint))) acc = .ok (acc ++ l) := by
  induction l generalizing acc with
  | nil => exact congrArg Except.ok (List.append_nil acc).symm
  | cons p l ih => simpa using ih (acc ++ [p])

/-- The flush keeps the in-order points in their order. -/
theorem sublist_flushOrder (ooo points : List DataPoint) : points.Sublist (flushOrder ooo points) := by
  unfold flushOrder
  induction points, ooo, (fun p o : DataPoint => decide (p.timestamp ≤ o.timestamp))
    using List.merge.induct with
  | case1 le ys => simp
  | case2 le xs h => simp
  | case3 le x xs y ys h ih => rw [List.cons_merge_cons_pos _ _ _ h]; exact ih.cons_cons x
  | case4 le x xs y ys h ih => rw [List.cons_merge_cons_neg _ _ _ h]; exact ih.cons y

/-- The decoder that hands out a list of points, one per call. -/
def listDecoding (points : List DataPoint) : SeriesDecoding (List DataPoint) where
  newSeriesDecoder _ := .ok points
  decodePoint
    | [] => .error "EOF"
    | p :: rest => .ok (p, rest)

end EmbedTSDB
