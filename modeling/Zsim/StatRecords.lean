import Mathlib.Data.List.Range
import Mathlib.Data.List.Flatten
import Mathlib.Logic.Basic
import Mathlib.Order.Basic
import Mathlib.Tactic.Ring

/-!
# The HDF5 stats backend

One walk over the stats builds the type of a record, another fills the record
in, and both skip vectors and sum regular aggregates. The summing walk writes
every child but the first past the record of the first, once for each regular
aggregate it is in, and the buffer has room for one record more than it keeps.
-/

namespace Zsim.StatRecords

/-- The ways the backend can fail. -/
inductive StatFailure where
  /-- `_children[0]` of no children, or `aggrStat->size() > 0`. -/
  | noChild
  /-- `!skipStat(aggrStat->get(0))` -/
  | skippedChild
  /-- A child of a regular aggregate has a different type than the first. -/
  | irregular
  /-- `size == 1` -/
  | emptyVector
  /-- `size == offset` -/
  | missized
  /-- `_bytesPerWrite/recordSize` with no bytes in a record. -/
  | divisionByZero
  /-- `hErrVal == 0` -/
  | noTable
  /-- An access past the end of `dataBuf`. -/
  | outOfBuffer
  /-- `curPtr == tmpPtr + sz` -/
  | misaligned
  /-- `dataBuf + bufferedRecords*recordSize/sizeof(uint64_t) == curPtr` -/
  | misplaced
  deriving DecidableEq, Repr

/-- A stat; the number of a leaf tells what it reads. -/
inductive Stat where
  | scalar (name : String) (id : ℕ)
  | vector (name : String) (id : ℕ) (size : ℕ)
  | aggregate (name : String) (isRegular : Bool) (children : List Stat)

/-- `name()` -/
def Stat.name : Stat → String
  | scalar name _ => name
  | vector name _ _ => name
  | aggregate name _ _ => name

/-- What the leaves read during a dump. -/
structure Values where
  get : ℕ → UInt64
  count : ℕ → ℕ → UInt64

/-- The settings of a backend. -/
structure Settings where
  skipVectors : Bool
  sumRegularAggregates : Bool

/-- `skipStat`. -/
def skipStat (o : Settings) : Stat → Bool
  | .vector _ _ _ => o.skipVectors
  | _ => false

/-- `dataBuf` and `curPtr`, in words. -/
structure Walk where
  dataBuf : List UInt64
  curPtr : ℕ

namespace Walk

/-- `*(curPtr++) = x` -/
def put (w : Walk) (x : UInt64) : Except StatFailure Walk :=
  if w.curPtr < w.dataBuf.length then .ok ⟨w.dataBuf.set w.curPtr x, w.curPtr + 1⟩ else .error .outOfBuffer

/-- The words of a vector. -/
def putAll (w : Walk) : List UInt64 → Except StatFailure Walk
  | [] => .ok w
  | x :: xs =>
    match w.put x with
    | .error e => .error e
    | .ok w => putAll w xs

/-- `startPtr[j] += tmpPtr[j]`, for the first `sz` words. -/
def add (w : Walk) (startPtr tmpPtr : ℕ) : ℕ → Except StatFailure Walk
  | 0 => .ok w
  | sz + 1 =>
    match add w startPtr tmpPtr sz with
    | .error e => .error e
    | .ok w =>
      match w.dataBuf[startPtr + sz]?, w.dataBuf[tmpPtr + sz]? with
      | some x, some y => .ok { w with dataBuf := w.dataBuf.set (startPtr + sz) (x + y) }
      | _, _ => .error .outOfBuffer

end Walk

mutual

/-- `dumpWalk`. -/
def dumpWalk (o : Settings) (v : Values) : Stat → Walk → Except StatFailure Walk
  | .scalar _ id, w => w.put (v.get id)
  | .vector _ id size, w =>
    if o.skipVectors = true then .ok w else w.putAll ((List.range size).map (v.count id))
  | .aggregate _ isRegular children, w =>
    if isRegular = true ∧ o.sumRegularAggregates = true then dumpSum o v children w else dumpAll o v children w

/-- The first child is dumped, and the others added. -/
def dumpSum (o : Settings) (v : Values) : List Stat → Walk → Except StatFailure Walk
  | [], _ => .error .noChild
  | child :: children, w =>
    match dumpWalk o v child w with
    | .error e => .error e
    | .ok first => sumWalk o v children w.curPtr first.curPtr first

/-- The children one after the other. -/
def dumpAll (o : Settings) (v : Values) : List Stat → Walk → Except StatFailure Walk
  | [], w => .ok w
  | child :: children, w =>
    match dumpWalk o v child w with
    | .error e => .error e
    | .ok w => dumpAll o v children w

/-- The others are dumped below the first, and added up. -/
def sumWalk (o : Settings) (v : Values) : List Stat → ℕ → ℕ → Walk → Except StatFailure Walk
  | [], _, _, w => .ok w
  | child :: children, startPtr, tmpPtr, w =>
    match dumpWalk o v child w with
    | .error e => .error e
    | .ok w =>
      if w.curPtr ≠ tmpPtr + (tmpPtr - startPtr) % 2 ^ 32 then .error .misaligned
      else
        match w.add startPtr tmpPtr ((tmpPtr - startPtr) % 2 ^ 32) with
        | .error e => .error e
        | .ok w => sumWalk o v children startPtr tmpPtr { w with curPtr := tmpPtr }

end

/-- What the backend uses of the HDF5 library. -/
structure HDF5 (Hid : Type) where
  H5T_NATIVE_ULONG : Hid
  H5Tarray_create2 : Hid → ℕ → Hid
  /-- `H5Tcreate` of a compound, and `H5Tinsert` of its names, offsets and types. -/
  compound : ℕ → List (String × ℕ × Hid) → Hid
  H5Tequal : Hid → Hid → Bool
  H5Tget_size : Hid → ℕ
  /-- Where the numbers of a type are, in bytes from its start. -/
  offsets : Hid → List ℕ
  /-- Does `H5TBmake_table` return 0, for a record size, a type and a chunk size? -/
  H5TBmake_table : ℕ → Hid → ℕ → Bool

section Types

variable {Hid : Type} [DecidableEq Hid] (h : HDF5 Hid) (o : Settings)

/-- `deduplicateH5Type`: the type to use, and `uniqueTypes`. -/
def deduplicateH5Type (type : Hid) (types : List Hid) : Hid × List Hid :=
  match types.find? fun it => it = type || h.H5Tequal it type with
  | some it => (it, types)
  | none => (type, types ++ [type])

/-- `getBaseH5Type`, for the size of the stat. -/
def getBaseH5Type (size : ℕ) (types : List Hid) : Except StatFailure (Hid × List Hid) :=
  if 1 < size then .ok (deduplicateH5Type h (h.H5Tarray_create2 h.H5T_NATIVE_ULONG size) types)
  else if size ≠ 1 then .error .emptyVector
  else .ok (deduplicateH5Type h h.H5T_NATIVE_ULONG types)

mutual

/-- `getH5Type`. -/
def getH5Type : Stat → List Hid → Except StatFailure (Hid × List Hid)
  | .scalar _ _, types => getBaseH5Type h 1 types
  | .vector _ _ size, types => getBaseH5Type h size types
  | .aggregate _ isRegular children, types =>
    if isRegular = true then regularType children types
    else
      match sizes children types with
      | .error e => .error e
      | .ok (size, types) =>
        match members children 0 types with
        | .error e => .error e
        | .ok (inserted, offset, types) =>
          if size ≠ offset then .error .missized
          else .ok (deduplicateH5Type h (h.compound size inserted) types)

/-- The type of a regular aggregate. -/
def regularType : List Stat → List Hid → Except StatFailure (Hid × List Hid)
  | [], _ => .error .noChild
  | child :: children, types =>
    if skipStat o child = true then .error .skippedChild
    else
      match getH5Type child types with
      | .error e => .error e
      | .ok (childType, types) =>
        match sameTypes childType children types with
        | .error e => .error e
        | .ok types =>
          if o.sumRegularAggregates = true then .ok (childType, types)
          else .ok (deduplicateH5Type h (h.H5Tarray_create2 childType (children.length + 1)) types)

/-- The other children have the type of the first. -/
def sameTypes (childType : Hid) : List Stat → List Hid → Except StatFailure (List Hid)
  | [], types => .ok types
  | child :: children, types =>
    match getH5Type child types with
    | .error e => .error e
    | .ok (otherType, types) =>
      if otherType ≠ childType then .error .irregular else sameTypes childType children types

/-- The first pass, to get sizes. -/
def sizes : List Stat → List Hid → Except StatFailure (ℕ × List Hid)
  | [], types => .ok (0, types)
  | child :: children, types =>
    if skipStat o child = true then sizes children types
    else
      match getH5Type child types with
      | .error e => .error e
      | .ok (childType, types) =>
        match sizes children types with
        | .error e => .error e
        | .ok (size, types) => .ok (h.H5Tget_size childType + size, types)

/-- The second pass, from an offset on: the members, and the offset past them. -/
def members : List Stat → ℕ → List Hid → Except StatFailure (List (String × ℕ × Hid) × ℕ × List Hid)
  | [], offset, types => .ok ([], offset, types)
  | child :: children, offset, types =>
    if skipStat o child = true then members children offset types
    else
      match getH5Type child types with
      | .error e => .error e
      | .ok (childType, types) =>
        match members children (offset + h.H5Tget_size childType) types with
        | .error e => .error e
        | .ok (inserted, past, types) => .ok ((child.name, offset, childType) :: inserted, past, types)

end

end Types

/-- The fields of `HDF5BackendImpl`, and the table it appends to. -/
structure HDF5BackendImpl where
  rootStat : Stat
  settings : Settings
  walk : Walk
  /-- In bytes. -/
  recordSize : ℕ
  recordsPerWrite : ℕ
  bufferedRecords : ℕ
  file : List (List UInt64)

namespace HDF5BackendImpl

/-- How many records to buffer, a 32-bit number. -/
def perWrite (bytesPerWrite recordSize : ℕ) : ℕ := (bytesPerWrite / recordSize + 1) % 2 ^ 32

/-- The size of the buffer, with space for a record more when there are sums. -/
def bufBytes (o : Settings) (recordsPerWrite recordSize : ℕ) : ℕ :=
  recordsPerWrite * recordSize + if o.sumRegularAggregates = true then recordSize else 0

/-- The constructor, on a new file. -/
def new {Hid : Type} [DecidableEq Hid] (h : HDF5 Hid) (rootStat : Stat) (bytesPerWrite : ℕ) (o : Settings) :
    Except StatFailure HDF5BackendImpl :=
  match getH5Type h o rootStat [] with
  | .error e => .error e
  | .ok (rootType, _) =>
    let recordSize := h.H5Tget_size rootType
    if recordSize = 0 then .error .divisionByZero
    else
      let recordsPerWrite := perWrite bytesPerWrite recordSize
      if h.H5TBmake_table recordSize rootType recordsPerWrite = false then .error .noTable
      else
        let bufSize := bufBytes o recordsPerWrite recordSize % 2 ^ 64
        .ok ⟨rootStat, o, ⟨List.replicate (bufSize / 8) 0, 0⟩, recordSize, recordsPerWrite, 0, []⟩

/-- The words of the records in the buffer. -/
def records (b : HDF5BackendImpl) (n : ℕ) (dataBuf : List UInt64) : List (List UInt64) :=
  (List.range n).map fun k => (dataBuf.drop (k * (b.recordSize / 8))).take (b.recordSize / 8)

/-- `dump`. -/
def dump (b : HDF5BackendImpl) (v : Values) (buffered : Bool) : Except StatFailure HDF5BackendImpl :=
  match dumpWalk b.settings v b.rootStat b.walk with
  | .error e => .error e
  | .ok walk =>
    let bufferedRecords := (b.bufferedRecords + 1) % 2 ^ 32
    if bufferedRecords * b.recordSize / 8 ≠ walk.curPtr then .error .misplaced
    else if bufferedRecords = b.recordsPerWrite ∨ buffered = false then
      .ok { b with
        walk := { walk with curPtr := 0 }
        bufferedRecords := 0
        file := b.file ++ b.records bufferedRecords walk.dataBuf }
    else .ok { b with walk := walk, bufferedRecords := bufferedRecords }

/-- A sequence of dumps. -/
def dumps (b : HDF5BackendImpl) : List (Values × Bool) → Except StatFailure HDF5BackendImpl
  | [] => .ok b
  | (v, buffered) :: rest =>
    match b.dump v buffered with
    | .error e => .error e
    | .ok b => b.dumps rest

end HDF5BackendImpl

mutual

/-- The words of a stat in a record. -/
def words (o : Settings) : Stat → ℕ
  | .scalar _ _ => 1
  | .vector _ _ size => if o.skipVectors = true then 0 else size
  | .aggregate _ isRegular children =>
    if isRegular = true ∧ o.sumRegularAggregates = true then wordsFirst o children else wordsAll o children

/-- The words of the first child. -/
def wordsFirst (o : Settings) : List Stat → ℕ
  | [] => 0
  | child :: _ => words o child

/-- The words of all the children. -/
def wordsAll (o : Settings) : List Stat → ℕ
  | [] => 0
  | child :: children => words o child + wordsAll o children

end

mutual

/-- How far the walk over a stat writes. -/
def reach (o : Settings) : Stat → ℕ
  | .scalar _ _ => 1
  | .vector _ _ size => if o.skipVectors = true then 0 else size
  | .aggregate _ isRegular children =>
    if isRegular = true ∧ o.sumRegularAggregates = true then reachSum o children else reachAll o children

/-- How far it writes over the first child, and over the others below. -/
def reachSum (o : Settings) : List Stat → ℕ
  | [] => 0
  | child :: children => max (reach o child) (words o child + reachAny o children)

/-- How far it writes over children one after the other. -/
def reachAll (o : Settings) : List Stat → ℕ
  | [] => 0
  | child :: children => max (reach o child) (words o child + reachAll o children)

/-- How far it writes over children all from the same place. -/
def reachAny (o : Settings) : List Stat → ℕ
  | [] => 0
  | child :: children => max (reach o child) (reachAny o children)

end

mutual

/-- What a record is to hold: the leaves in order, those of a summed aggregate
summed over its children. -/
def leaves (o : Settings) (v : Values) : Stat → List UInt64
  | .scalar _ id => [v.get id]
  | .vector _ id size => if o.skipVectors = true then [] else (List.range size).map (v.count id)
  | .aggregate _ isRegular children =>
    if isRegular = true ∧ o.sumRegularAggregates = true then leavesRegular o v children else leavesAll o v children

/-- The sums of the leaves of the children. -/
def leavesRegular (o : Settings) (v : Values) : List Stat → List UInt64
  | [] => []
  | child :: children => leavesSum o v (leaves o v child) children

/-- The leaves of all the children. -/
def leavesAll (o : Settings) (v : Values) : List Stat → List UInt64
  | [] => []
  | child :: children => leaves o v child ++ leavesAll o v children

/-- The leaves of the children, added to a sum. -/
def leavesSum (o : Settings) (v : Values) (sum : List UInt64) : List Stat → List UInt64
  | [] => sum
  | child :: children => leavesSum o v (List.zipWith (· + ·) sum (leaves o v child)) children

end

/-- The members of a compound, one after the other up to its size. -/
def Packed {Hid : Type} (h : HDF5 Hid) (size : ℕ) : ℕ → List (String × ℕ × Hid) → Prop
  | offset, [] => offset = size
  | offset, m :: ms => m.2.1 = offset ∧ Packed h size (offset + h.H5Tget_size m.2.2) ms

/-- What HDF5 documents of its types. -/
structure HDF5.Documented {Hid : Type} (h : HDF5 Hid) : Prop where
  size_ulong : h.H5Tget_size h.H5T_NATIVE_ULONG = 8
  size_array : ∀ t n, h.H5Tget_size (h.H5Tarray_create2 t n) = n * h.H5Tget_size t
  size_compound : ∀ n ms, 0 < n → (ms.map Prod.fst).Nodup → Packed h n 0 ms → h.H5Tget_size (h.compound n ms) = n
  size_equal : ∀ t u, h.H5Tequal t u = true → h.H5Tget_size t = h.H5Tget_size u
  offsets_ulong : h.offsets h.H5T_NATIVE_ULONG = [0]
  offsets_array : ∀ t n, h.offsets (h.H5Tarray_create2 t n) =
    (List.range n).flatMap fun i => (h.offsets t).map (i * h.H5Tget_size t + ·)
  offsets_compound : ∀ n ms, 0 < n → (ms.map Prod.fst).Nodup → Packed h n 0 ms →
    h.offsets (h.compound n ms) = ms.flatMap fun m => (h.offsets m.2.2).map (m.2.1 + ·)
  offsets_equal : ∀ t u, h.H5Tequal t u = true → h.offsets t = h.offsets u

/-- The trees whose records and types agree. -/
inductive WellShaped (o : Settings) : Stat → Prop where
  | scalar {name id} : WellShaped o (.scalar name id)
  | vector {name id size} : WellShaped o (.vector name id size)
  /-- No child is skipped, and a record that is summed has less than 2^32 words. -/
  | regular {name children} (hskip : ∀ c ∈ children, skipStat o c = false)
      (hsum : o.sumRegularAggregates = true → children.length ≤ 1 ∨ words o (.aggregate name true children) < 2 ^ 32)
      (hchildren : ∀ c ∈ children, WellShaped o c) : WellShaped o (.aggregate name true children)
  /-- Some child is not skipped, and those that are not have different names. -/
  | compound {name children} (hsome : ∃ c ∈ children, skipStat o c = false)
      (hnames : ((children.filter fun c => skipStat o c = false).map Stat.name).Nodup)
      (hchildren : ∀ c ∈ children, WellShaped o c) : WellShaped o (.aggregate name false children)

section Schema

variable {Hid : Type} {h : HDF5 Hid} {o : Settings} {t : Hid} {types types' : List Hid} {n : ℕ}

/-- A type of so many words, its numbers one after the other. -/
structure Describes (h : HDF5 Hid) (t : Hid) (n : ℕ) : Prop where
  size : h.H5Tget_size t = 8 * n
  offsets : h.offsets t = (List.range n).map (8 * ·)
  pos : 0 < n

theorem describes_ulong (hdoc : h.Documented) : Describes h h.H5T_NATIVE_ULONG 1 :=
  ⟨hdoc.size_ulong, hdoc.offsets_ulong, Nat.one_pos⟩

/-- The words of equal blocks, block by block. -/
theorem flatMap_range_mul (k n : ℕ) :
    ((List.range k).flatMap fun i => ((List.range n).map (8 * ·)).map (i * (8 * n) + ·)) =
      (List.range (k * n)).map (8 * ·) := by
  induction k with
  | zero => rw [Nat.zero_mul]; rfl
  | succ k ih =>
    rw [List.range_succ, List.flatMap_append, ih, Nat.succ_mul k n, List.range_add, List.map_append, List.flatMap_singleton,
      List.map_map, List.map_map]
    congr 1
    refine List.map_congr_left fun j _ => ?_
    simp only [Function.comp_apply]
    ring

theorem Describes.array (hdoc : h.Documented) (ht : Describes h t n) {k : ℕ} (hk : 0 < k) :
    Describes h (h.H5Tarray_create2 t k) (k * n) := by
  refine ⟨?_, ?_, Nat.mul_pos hk ht.pos⟩
  · rw [hdoc.size_array, ht.size]
    ring
  · rw [hdoc.offsets_array, ht.offsets, ht.size, flatMap_range_mul]

variable [DecidableEq Hid]

/-- A duplicate describes the same. -/
theorem Describes.dedup (hdoc : h.Documented) (ht : Describes h t n) (types : List Hid) :
    Describes h (deduplicateH5Type h t types).1 n := by
  rw [deduplicateH5Type]
  split
  · next it hfound =>
    have hit := List.find?_some hfound
    rw [Bool.or_eq_true, decide_eq_true_eq] at hit
    rcases hit with rfl | hequal
    · exact ht
    · exact ⟨(hdoc.size_equal it t hequal).trans ht.size, (hdoc.offsets_equal it t hequal).trans ht.offsets, ht.pos⟩
  · exact ht

theorem getBaseH5Type_describes (hdoc : h.Documented) {size : ℕ}
    (hok : getBaseH5Type h size types = .ok (t, types')) : Describes h t size := by
  rw [getBaseH5Type] at hok
  split at hok
  · next hsize =>
    have harray := ((describes_ulong hdoc).array hdoc (k:=size) (by omega)).dedup hdoc types
    rw [Except.ok.inj hok, Nat.mul_one] at harray
    exact harray
  · split at hok
    · cases hok
    · next hone =>
      have hulong := (describes_ulong hdoc).dedup hdoc types
      rw [Except.ok.inj hok] at hulong
      rw [not_not.mp hone]
      exact hulong

theorem sameTypes_ok {child : Stat} {children : List Stat} (hok : sameTypes h o t children types = .ok types')
    (hchild : child ∈ children) : ∃ types types', getH5Type h o child types = .ok (t, types') := by
  induction children generalizing types with
  | nil => cases hchild
  | cons c cs ih =>
    rw [sameTypes] at hok
    split at hok
    · cases hok
    · next otherType types₁ hother =>
      split at hok
      · cases hok
      · next hsame =>
        rcases List.mem_cons.mp hchild with rfl | hchild
        · exact ⟨types, types₁, not_not.mp hsame ▸ hother⟩
        · exact ih hok hchild

/-- What is accepted as a regular aggregate. -/
theorem getH5Type_regular {name : String} {children : List Stat}
    (hok : getH5Type h o (.aggregate name true children) types = .ok (t, types')) :
    ∃ childType types₂, (∀ c ∈ children, ∃ types types', getH5Type h o c types = .ok (childType, types')) ∧
      0 < children.length ∧ t = if o.sumRegularAggregates = true then childType
        else (deduplicateH5Type h (h.H5Tarray_create2 childType children.length) types₂).1 := by
  rw [getH5Type, if_pos rfl] at hok
  cases children with
  | nil =>
    rw [regularType] at hok
    cases hok
  | cons c cs =>
    rw [regularType] at hok
    split at hok
    · cases hok
    · split at hok
      · cases hok
      · next childType types₁ hfirst =>
        split at hok
        · cases hok
        · next types₂ hsame =>
          refine ⟨childType, types₂, fun d hd => ?_, Nat.succ_pos _, ?_⟩
          · rcases List.mem_cons.mp hd with rfl | hd
            · exact ⟨types, types₁, hfirst⟩
            · exact sameTypes_ok hsame hd
          · split at hok
            · next hsum => rw [if_pos hsum, (Prod.mk.inj (Except.ok.inj hok)).1]
            · next hsum =>
              rw [if_neg hsum]
              exact (congrArg Prod.fst (Except.ok.inj hok)).symm

theorem wordsAll_eq {children : List Stat} {n : ℕ} (hwords : ∀ c ∈ children, words o c = n) :
    wordsAll o children = children.length * n := by
  induction children with
  | nil => rw [wordsAll, List.length_nil, Nat.zero_mul]
  | cons c cs ih =>
    rw [wordsAll, hwords c List.mem_cons_self, ih fun d hd => hwords d (List.mem_cons_of_mem c hd), List.length_cons]
    ring

theorem words_skipped {s : Stat} (hskip : skipStat o s = true) : words o s = 0 := by
  cases s with
  | scalar => cases hskip
  | vector name id size => exact if_pos hskip
  | aggregate => cases hskip

/-- The second pass packs the children that are not skipped. -/
theorem members_ok {children : List Stat} {offset past : ℕ} {ms : List (String × ℕ × Hid)}
    (hchildren : ∀ c ∈ children, skipStat o c = false → ∀ types t types', getH5Type h o c types = .ok (t, types') →
      Describes h t (words o c))
    (hok : members h o children offset types = .ok (ms, past, types')) :
    past = offset + 8 * wordsAll o children ∧ Packed h past offset ms ∧
      ms.map Prod.fst = (children.filter fun c => skipStat o c = false).map Stat.name ∧
      (ms.flatMap fun m => (h.offsets m.2.2).map (m.2.1 + ·)) =
        (List.range (wordsAll o children)).map (offset + 8 * ·) := by
  induction children generalizing types offset ms past types' with
  | nil =>
    rw [members] at hok
    cases hok
    exact ⟨rfl, rfl, rfl, rfl⟩
  | cons c cs ih =>
    have hcs := fun d hd => hchildren d (List.mem_cons_of_mem c hd)
    rw [members] at hok
    rw [wordsAll]
    split at hok
    · next hskip =>
      rw [words_skipped hskip, Nat.zero_add, List.filter_cons_of_neg (by rw [hskip]; decide)]
      exact ih hcs hok
    · next hskip =>
      have hskip := Bool.eq_false_iff.mpr hskip
      rw [List.filter_cons_of_pos (by rw [hskip]; decide)]
      split at hok
      · cases hok
      · next childType types₁ hchild =>
        have hc := hchildren c List.mem_cons_self hskip _ _ _ hchild
        split at hok
        · cases hok
        · next ms₁ past₁ types₂ hrest =>
          obtain ⟨hpast, hpacked, hnames, hoffsets⟩ := ih hcs hrest
          cases hok
          refine ⟨?_, ⟨rfl, hpacked⟩, ?_, ?_⟩
          · rw [hpast, hc.size]
            ring
          · rw [List.map_cons, List.map_cons, hnames]
          · rw [List.flatMap_cons, hoffsets, hc.offsets, hc.size, List.range_add, List.map_append, List.map_map,
              List.map_map]
            congr 1
            refine List.map_congr_left fun j _ => ?_
            simp only [Function.comp_apply]
            ring

theorem members_accepted {children : List Stat} {offset past : ℕ} {ms : List (String × ℕ × Hid)}
    (hok : members h o children offset types = .ok (ms, past, types')) :
    ∀ c ∈ children, skipStat o c = false → ∃ types t types', getH5Type h o c types = .ok (t, types') := by
  induction children generalizing types offset ms past types' with
  | nil => exact fun _ => nofun
  | cons c cs ih =>
    rw [members] at hok
    refine List.forall_mem_cons.mpr ⟨fun hskip => ?_, ?_⟩
    · rw [if_neg (Bool.eq_false_iff.mp hskip)] at hok
      split at hok
      · cases hok
      · next childType types₁ hchild => exact ⟨_, _, _, hchild⟩
    · split at hok
      · exact ih hok
      · split at hok
        · cases hok
        · split at hok
          · cases hok
          · next hrest => exact ih hrest

theorem words_le {child : Stat} {children : List Stat} (hchild : child ∈ children) :
    words o child ≤ wordsAll o children := by
  induction children with
  | nil => cases hchild
  | cons c cs ih =>
    rw [wordsAll]
    rcases List.mem_cons.mp hchild with rfl | hchild
    · exact Nat.le_add_right ..
    · exact (ih hchild).trans (Nat.le_add_left ..)

/-- What is accepted as a compound. -/
theorem getH5Type_compound {name : String} {children : List Stat}
    (hok : getH5Type h o (.aggregate name false children) types = .ok (t, types')) :
    ∃ size ms types₁ types₂, sizes h o children types = .ok (size, types₁) ∧
      members h o children 0 types₁ = .ok (ms, size, types₂) ∧
      t = (deduplicateH5Type h (h.compound size ms) types₂).1 := by
  rw [getH5Type, if_neg Bool.false_ne_true] at hok
  split at hok
  · cases hok
  · next size types₁ hsizes =>
    split at hok
    · cases hok
    · next ms past types₂ hmembers =>
      split at hok
      · cases hok
      · next hsize =>
        rw [not_not] at hsize
        subst hsize
        exact ⟨size, ms, types₁, types₂, hsizes, hmembers, (congrArg Prod.fst (Except.ok.inj hok)).symm⟩

/-- The type of a stat describes as many words as its dump leaves. -/
theorem getH5Type_describes (hdoc : h.Documented) {s : Stat} (hs : WellShaped o s) (hskip : skipStat o s = false)
    (hok : getH5Type h o s types = .ok (t, types')) : Describes h t (words o s) := by
  induction hs generalizing types t types' with
  | scalar =>
    rw [getH5Type] at hok
    rw [words]
    exact getBaseH5Type_describes hdoc hok
  | vector =>
    rw [getH5Type] at hok
    rw [words, if_neg (Bool.eq_false_iff.mp (show o.skipVectors = false from hskip))]
    exact getBaseH5Type_describes hdoc hok
  | @regular name children hskips hsum hchildren ih =>
    obtain ⟨childType, types₂, haccepted, hpos, ht⟩ := getH5Type_regular hok
    have hdescribes : ∀ c ∈ children, Describes h childType (words o c) := by
      intro c hc
      obtain ⟨types, types', hc'⟩ := haccepted c hc
      exact ih c hc (hskips c hc) hc'
    obtain ⟨c, cs, rfl⟩ := List.exists_cons_of_length_pos hpos
    have hfirst := hdescribes c List.mem_cons_self
    have hwords : ∀ d ∈ c :: cs, words o d = words o c := by
      intro d hd
      have hsize := (hdescribes d hd).size.symm.trans hfirst.size
      omega
    rw [ht, words]
    by_cases hsums : o.sumRegularAggregates = true
    · rw [if_pos hsums, if_pos ⟨rfl, hsums⟩, wordsFirst]
      exact hfirst
    · rw [if_neg hsums, if_neg fun hboth => hsums hboth.2, wordsAll_eq hwords]
      exact (hfirst.array hdoc hpos).dedup hdoc types₂
  | @compound name children hsome hnames hchildren ih =>
    obtain ⟨size, ms, types₁, types₂, hsizes, hmembers, ht⟩ := getH5Type_compound hok
    have hdescribes : ∀ c ∈ children, skipStat o c = false → ∀ types t types',
        getH5Type h o c types = .ok (t, types') → Describes h t (words o c) :=
      fun c hc hc' types t types' hok => ih c hc hc' hok
    obtain ⟨hsize, hpacked, hmemberNames, hoffsets⟩ := members_ok hdescribes hmembers
    rw [Nat.zero_add] at hsize
    have hpos : 0 < wordsAll o children := by
      obtain ⟨c, hc, hcskip⟩ := hsome
      obtain ⟨types, t, types', hc'⟩ := members_accepted hmembers c hc hcskip
      exact (hdescribes c hc hcskip types t types' hc').pos.trans_le (words_le hc)
    have hnodup : (ms.map Prod.fst).Nodup := hmemberNames ▸ hnames
    rw [ht, words, if_neg fun hboth => Bool.false_ne_true hboth.1]
    refine Describes.dedup hdoc ⟨?_, ?_, hpos⟩ types₂
    · rw [hdoc.size_compound size ms (by omega) hnodup hpacked, hsize]
    · rw [hdoc.offsets_compound size ms (by omega) hnodup hpacked, hoffsets]
      exact List.map_congr_left fun j _ => Nat.zero_add _

end Schema

section Dumping

variable {o : Settings} {v : Values} {b b' b'' : List UInt64} {p n : ℕ} {xs ys : List UInt64}

/-- Words written to a buffer from a place on, and nothing below. -/
structure Wrote (b b' : List UInt64) (p : ℕ) (xs : List UInt64) : Prop where
  length : b'.length = b.length
  below : ∀ i < p, b'[i]? = b[i]?
  words : ∀ i < xs.length, b'[p + i]? = xs[i]?

theorem Wrote.nil : Wrote b b p [] := ⟨rfl, fun _ _ => rfl, fun _ => nofun⟩

theorem Wrote.append (h : Wrote b b' p xs) (h' : Wrote b' b'' (p + xs.length) ys) : Wrote b b'' p (xs ++ ys) := by
  refine ⟨h'.length.trans h.length, fun i hi => (h'.below i (by omega)).trans (h.below i hi), fun i hi => ?_⟩
  rw [List.length_append] at hi
  by_cases hlt : i < xs.length
  · rw [h'.below (p + i) (by omega), h.words i hlt, List.getElem?_append_left hlt]
  · have hword := h'.words (i - xs.length) (by omega)
    rw [show p + xs.length + (i - xs.length) = p + i by omega] at hword
    rw [hword, List.getElem?_append_right (by omega)]

theorem put_ok {w : Walk} (hroom : w.curPtr < w.dataBuf.length) (x : UInt64) :
    ∃ buf, w.put x = .ok ⟨buf, w.curPtr + 1⟩ ∧ Wrote w.dataBuf buf w.curPtr [x] := by
  refine ⟨_, if_pos hroom, List.length_set, fun i hi => List.getElem?_set_ne hi.ne', fun i hi => ?_⟩
  have hzero : i = 0 := Nat.lt_one_iff.mp hi
  subst hzero
  rw [Nat.add_zero, List.getElem?_set_self hroom]
  rfl

theorem putAll_ok {w : Walk} (xs : List UInt64) (hroom : w.curPtr + xs.length ≤ w.dataBuf.length) :
    ∃ buf, w.putAll xs = .ok ⟨buf, w.curPtr + xs.length⟩ ∧ Wrote w.dataBuf buf w.curPtr xs := by
  induction xs generalizing w with
  | nil => exact ⟨_, rfl, Wrote.nil⟩
  | cons x xs ih =>
    rw [List.length_cons] at hroom
    obtain ⟨buf, hput, hwrote⟩ := put_ok (w:=w) (by omega) x
    obtain ⟨buf', hrest, hwrote'⟩ := ih (w:=⟨buf, w.curPtr + 1⟩) (by rw [hwrote.length]; dsimp only; omega)
    refine ⟨buf', ?_, hwrote.append hwrote'⟩
    simp only [Walk.putAll, hput]
    rw [hrest, List.length_cons]
    congr 2
    exact Nat.succ_add_eq_add_succ w.curPtr xs.length

/-- The first words of the sum are added. -/
theorem add_ok {w : Walk} (hxs : ∀ i < xs.length, w.dataBuf[p + i]? = xs[i]?)
    (hys : ∀ i < ys.length, w.dataBuf[p + xs.length + i]? = ys[i]?) (hlength : ys.length = xs.length) (j : ℕ)
    (hj : j ≤ xs.length) :
    ∃ buf, w.add p (p + xs.length) j = .ok ⟨buf, w.curPtr⟩ ∧ buf.length = w.dataBuf.length ∧
      (∀ i < j, buf[p + i]? = (List.zipWith (· + ·) xs ys)[i]?) ∧
      ∀ i, ¬ (p ≤ i ∧ i < p + j) → buf[i]? = w.dataBuf[i]? := by
  induction j with
  | zero => exact ⟨_, rfl, rfl, fun _ => nofun, fun _ _ => rfl⟩
  | succ j ih =>
    obtain ⟨buf, hadd, hbuf, hadded, hkept⟩ := ih (by omega)
    have hx : buf[p + j]? = some xs[j] := by
      rw [hkept (p + j) (by omega), hxs j hj, List.getElem?_eq_getElem hj]
    have hy : buf[p + xs.length + j]? = some ys[j] := by
      rw [hkept _ (by omega), hys j (by omega), List.getElem?_eq_getElem]
    have hroom : p + j < buf.length := (List.getElem?_eq_some_iff.mp hx).1
    refine ⟨buf.set (p + j) (xs[j] + ys[j]), ?_, List.length_set.trans hbuf, fun i hi => ?_, fun i hi => ?_⟩
    · simp only [Walk.add, hadd, hx, hy]
    · by_cases heq : i = j
      · subst heq
        rw [List.getElem?_set_self hroom, List.getElem?_zipWith, List.getElem?_eq_getElem hj,
          List.getElem?_eq_getElem (hlength ▸ hj)]
      · rw [List.getElem?_set_ne (by omega)]
        exact hadded i (by omega)
    · rw [List.getElem?_set_ne (by omega)]
      exact hkept i (by omega)

/-- A child dumped below a sum is added to it. -/
theorem Wrote.add (h : Wrote b b' p xs) (h' : Wrote b' b'' (p + xs.length) ys) (hlength : ys.length = xs.length)
    (cur : ℕ) : ∃ buf, (Walk.mk b'' cur).add p (p + xs.length) xs.length = .ok ⟨buf, cur⟩ ∧
      Wrote b buf p (List.zipWith (· + ·) xs ys) := by
  have hxs : ∀ i < xs.length, b''[p + i]? = xs[i]? := fun i hi => (h'.below _ (by omega)).trans (h.words i hi)
  obtain ⟨buf, hadd, hbuf, hadded, hkept⟩ := add_ok (w:=⟨b'', cur⟩) hxs h'.words hlength xs.length le_rfl
  refine ⟨buf, hadd, hbuf.trans (h'.length.trans h.length), fun i hi => ?_, fun i hi => hadded i ?_⟩
  · rw [hkept i (by omega)]
    exact (h'.below i (by omega)).trans (h.below i hi)
  · rw [List.length_zipWith] at hi
    omega

/-- A stat that is dumped wherever there is room for its reach. -/
structure Dumped (o : Settings) (v : Values) (s : Stat) : Prop where
  length : (leaves o v s).length = words o s
  dump : ∀ w : Walk, w.curPtr + reach o s ≤ w.dataBuf.length →
    ∃ buf, dumpWalk o v s w = .ok ⟨buf, w.curPtr + words o s⟩ ∧ Wrote w.dataBuf buf w.curPtr (leaves o v s)

theorem length_leavesAll {children : List Stat} (hchildren : ∀ c ∈ children, Dumped o v c) :
    (leavesAll o v children).length = wordsAll o children := by
  induction children with
  | nil => rfl
  | cons c cs ih =>
    rw [leavesAll, List.length_append, wordsAll, (hchildren c List.mem_cons_self).length,
      ih fun d hd => hchildren d (List.mem_cons_of_mem c hd)]

theorem length_leavesSum {children : List Stat} (hchildren : ∀ c ∈ children, (leaves o v c).length = xs.length) :
    (leavesSum o v xs children).length = xs.length := by
  induction children generalizing xs with
  | nil => rfl
  | cons c cs ih =>
    have hzip : (List.zipWith (· + ·) xs (leaves o v c)).length = xs.length := by
      rw [List.length_zipWith, hchildren c List.mem_cons_self, min_self]
    rw [leavesSum, ih fun d hd => (hchildren d (List.mem_cons_of_mem c hd)).trans hzip.symm, hzip]

theorem dumpAll_ok {children : List Stat} (hchildren : ∀ c ∈ children, Dumped o v c) {w : Walk}
    (hroom : w.curPtr + reachAll o children ≤ w.dataBuf.length) :
    ∃ buf, dumpAll o v children w = .ok ⟨buf, w.curPtr + wordsAll o children⟩ ∧
      Wrote w.dataBuf buf w.curPtr (leavesAll o v children) := by
  induction children generalizing w with
  | nil => exact ⟨_, rfl, Wrote.nil⟩
  | cons c cs ih =>
    rw [reachAll] at hroom
    obtain ⟨hlength, hdump⟩ := hchildren c List.mem_cons_self
    obtain ⟨buf, hfirst, hwrote⟩ := hdump w (by omega)
    obtain ⟨buf', hrest, hwrote'⟩ := ih (fun d hd => hchildren d (List.mem_cons_of_mem c hd))
      (w:=⟨buf, w.curPtr + words o c⟩) (by rw [hwrote.length]; dsimp only; omega)
    refine ⟨buf', ?_, ?_⟩
    · rw [dumpAll, hfirst, wordsAll, ← Nat.add_assoc]
      exact hrest
    · rw [leavesAll]
      exact hwrote.append (hlength ▸ hwrote')

/-- The others are added to the sum, one after the other. -/
theorem sumWalk_ok {children : List Stat} (hchildren : ∀ c ∈ children, Dumped o v c)
    (hwords : ∀ c ∈ children, words o c = xs.length) (hsize : children = [] ∨ xs.length < 2 ^ 32)
    (h : Wrote b b' p xs) (hroom : p + xs.length + reachAny o children ≤ b.length) :
    ∃ buf, sumWalk o v children p (p + xs.length) ⟨b', p + xs.length⟩ = .ok ⟨buf, p + xs.length⟩ ∧
      Wrote b buf p (leavesSum o v xs children) := by
  induction children generalizing b' xs with
  | nil => exact ⟨b', rfl, h⟩
  | cons c cs ih =>
    have hsize := hsize.resolve_left (List.cons_ne_nil c cs)
    rw [reachAny] at hroom
    obtain ⟨hlength, hdump⟩ := hchildren c List.mem_cons_self
    obtain ⟨b'', hchild, h'⟩ := hdump ⟨b', p + xs.length⟩ (by rw [h.length]; dsimp only; omega)
    have hsame : (leaves o v c).length = xs.length := hlength.trans (hwords c List.mem_cons_self)
    obtain ⟨buf, hadd, hsum⟩ := h.add h' hsame (p + xs.length + words o c)
    have hzip : (List.zipWith (· + ·) xs (leaves o v c)).length = xs.length := by
      rw [List.length_zipWith, hsame, min_self]
    obtain ⟨buf', hrest, hwrote⟩ := ih
      (fun d hd => hchildren d (List.mem_cons_of_mem c hd))
      (fun d hd => (hwords d (List.mem_cons_of_mem c hd)).trans hzip.symm) (.inr (hzip ▸ hsize)) hsum
      (by rw [hzip]; omega)
    rw [hzip] at hrest
    have hwraps : (p + xs.length - p) % 2 ^ 32 = xs.length := by
      rw [Nat.add_sub_cancel_left, Nat.mod_eq_of_lt hsize]
    refine ⟨buf', ?_, ?_⟩
    · rw [sumWalk, hchild]
      simp only [hwraps, hwords c List.mem_cons_self] at hadd ⊢
      rw [if_neg (not_not.mpr rfl), hadd]
      exact hrest
    · rw [leavesSum]
      exact hwrote

/-- The sum of the children of a regular aggregate. -/
theorem dumpSum_ok {c : Stat} {cs : List Stat} (hchildren : ∀ d ∈ c :: cs, Dumped o v d)
    (hwords : ∀ d ∈ cs, words o d = words o c) (hsize : cs.length + 1 ≤ 1 ∨ words o c < 2 ^ 32) {w : Walk}
    (hroom : w.curPtr + reachSum o (c :: cs) ≤ w.dataBuf.length) :
    ∃ buf, dumpSum o v (c :: cs) w = .ok ⟨buf, w.curPtr + words o c⟩ ∧
      Wrote w.dataBuf buf w.curPtr (leavesSum o v (leaves o v c) cs) := by
  rw [reachSum] at hroom
  obtain ⟨hlength, hdump⟩ := hchildren c List.mem_cons_self
  obtain ⟨buf, hfirst, hwrote⟩ := hdump w (by omega)
  have hsize' : cs = [] ∨ (leaves o v c).length < 2 ^ 32 := by
    rw [hlength, ← List.length_eq_zero_iff]
    omega
  obtain ⟨buf', hrest, hwrote'⟩ := sumWalk_ok (fun d hd => hchildren d (List.mem_cons_of_mem c hd))
    (fun d hd => (hwords d hd).trans hlength.symm) hsize' hwrote (by rw [hlength]; omega)
  refine ⟨buf', ?_, hwrote'⟩
  rw [hlength] at hrest
  rw [dumpSum, hfirst]
  exact hrest

variable {Hid : Type} [DecidableEq Hid] {h : HDF5 Hid}

/-- A stat whose type is accepted is dumped. -/
theorem dumpWalk_ok (hdoc : h.Documented) {s : Stat} (hs : WellShaped o s)
    (haccepted : skipStat o s = false → ∃ types t types', getH5Type h o s types = .ok (t, types')) :
    Dumped o v s := by
  induction hs with
  | @scalar name id => exact ⟨rfl, fun w hroom => put_ok (Nat.lt_of_succ_le hroom) (v.get id)⟩
  | @vector name id size =>
    by_cases hskip : o.skipVectors = true
    · refine ⟨by rw [leaves, words, if_pos hskip, if_pos hskip]; rfl, fun w _ => ⟨w.dataBuf, ?_, ?_⟩⟩
      · rw [dumpWalk, words, if_pos hskip, if_pos hskip]
        rfl
      · rw [leaves, if_pos hskip]
        exact Wrote.nil
    · have hlength : ((List.range size).map (v.count id)).length = size := by
        rw [List.length_map, List.length_range]
      refine ⟨by rw [leaves, words, if_neg hskip, if_neg hskip, hlength], fun w hroom => ?_⟩
      rw [reach, if_neg hskip] at hroom
      obtain ⟨buf, hput, hwrote⟩ := putAll_ok ((List.range size).map (v.count id)) (hlength.symm ▸ hroom)
      refine ⟨buf, ?_, ?_⟩
      · rw [dumpWalk, words, if_neg hskip, if_neg hskip, hput, hlength]
      · rw [leaves, if_neg hskip]
        exact hwrote
  | @regular name children hskips hsum hchildren ih =>
    obtain ⟨types, t, types', hok⟩ := haccepted rfl
    obtain ⟨childType, types₂, hchildType, hpos, -⟩ := getH5Type_regular hok
    have hdumped : ∀ c ∈ children, Dumped o v c := by
      intro c hc
      obtain ⟨types, types', hc'⟩ := hchildType c hc
      exact ih c hc fun _ => ⟨types, childType, types', hc'⟩
    by_cases hsums : o.sumRegularAggregates = true
    · have hboth : true = true ∧ o.sumRegularAggregates = true := ⟨rfl, hsums⟩
      have hsum := hsum hsums
      obtain ⟨c, cs, rfl⟩ := List.exists_cons_of_length_pos hpos
      rw [words, if_pos hboth, wordsFirst, List.length_cons] at hsum
      have hsize : ∀ d ∈ c :: cs, h.H5Tget_size childType = 8 * words o d := by
        intro d hd
        obtain ⟨types, types', hd'⟩ := hchildType d hd
        exact (getH5Type_describes hdoc (hchildren d hd) (hskips d hd) hd').size
      have hwords : ∀ d ∈ cs, words o d = words o c := by
        intro d hd
        have hd := hsize d (List.mem_cons_of_mem c hd)
        have hc := hsize c List.mem_cons_self
        omega
      have hfirst := hdumped c List.mem_cons_self
      refine ⟨?_, fun w hroom => ?_⟩
      · rw [leaves, words, if_pos hboth, if_pos hboth, leavesRegular, wordsFirst, length_leavesSum, hfirst.length]
        intro d hd
        rw [(hdumped d (List.mem_cons_of_mem c hd)).length, hwords d hd, hfirst.length]
      · rw [reach, if_pos hboth] at hroom
        rw [dumpWalk, words, leaves, if_pos hboth, if_pos hboth, if_pos hboth, wordsFirst, leavesRegular]
        exact dumpSum_ok hdumped hwords hsum hroom
    · have hboth : ¬ (true = true ∧ o.sumRegularAggregates = true) := fun hboth => hsums hboth.2
      refine ⟨?_, fun w hroom => ?_⟩
      · rw [leaves, words, if_neg hboth, if_neg hboth, length_leavesAll hdumped]
      · rw [reach, if_neg hboth] at hroom
        rw [dumpWalk, words, leaves, if_neg hboth, if_neg hboth, if_neg hboth]
        exact dumpAll_ok hdumped hroom
  | @compound name children hsome hnames hchildren ih =>
    obtain ⟨types, t, types', hok⟩ := haccepted rfl
    obtain ⟨size, ms, types₁, types₂, -, hmembers, -⟩ := getH5Type_compound hok
    have hdumped : ∀ c ∈ children, Dumped o v c :=
      fun c hc => ih c hc fun hskip => members_accepted hmembers c hc hskip
    have hboth : ¬ (false = true ∧ o.sumRegularAggregates = true) := fun hboth => Bool.false_ne_true hboth.1
    refine ⟨?_, fun w hroom => ?_⟩
    · rw [leaves, words, if_neg hboth, if_neg hboth, length_leavesAll hdumped]
    · rw [reach, if_neg hboth] at hroom
      rw [dumpWalk, words, leaves, if_neg hboth, if_neg hboth, if_neg hboth]
      exact dumpAll_ok hdumped hroom

end Dumping

/-- The numbers HDF5 finds in a record of a type. -/
def HDF5.read {Hid : Type} (h : HDF5 Hid) (t : Hid) (record : List UInt64) : List (Option UInt64) :=
  (h.offsets t).map fun offset => record[offset / 8]?

/-- Every dump of the sequence starts with room for the reach of the stats. -/
def HDF5BackendImpl.Roomy : HDF5BackendImpl → List (Values × Bool) → Prop
  | _, [] => True
  | b, (v, buffered) :: rest => b.walk.curPtr + reach b.settings b.rootStat ≤ b.walk.dataBuf.length ∧
      ∀ b', b.dump v buffered = .ok b' → b'.Roomy rest

/-- After these dumps, the file and then the buffer hold them in order, each with
the value of every leaf where its type has it. -/
structure Recorded {Hid : Type} (h : HDF5 Hid) (t : Hid) (b : HDF5BackendImpl) (dumped : List (Values × Bool)) :
    Prop where
  curPtr : 8 * b.walk.curPtr = b.bufferedRecords * h.H5Tget_size t
  appended : (b.file ++ b.records b.bufferedRecords b.walk.dataBuf).map (h.read t) =
    dumped.map fun d => (leaves b.settings d.1 b.rootStat).map some
  flushed : ∀ v, dumped.getLast? = some (v, false) → b.bufferedRecords = 0

section Runs

variable {o : Settings} {v : Values} {root : Stat} {b : HDF5BackendImpl} {buf buf' : List UInt64} {p : ℕ}
  {xs : List UInt64} {dumped : List (List UInt64)} {k size : ℕ}

/-- What is written is in the buffer. -/
theorem Wrote.room (hwrote : Wrote buf buf' p xs) (hpos : 0 < xs.length) : p + xs.length ≤ buf.length := by
  have hlast := hwrote.words (xs.length - 1) (by omega)
  rw [List.getElem?_eq_getElem (l:=xs) (by omega)] at hlast
  have hlt := (List.getElem?_eq_some_iff.mp hlast).1
  rw [hwrote.length] at hlt
  omega

theorem Wrote.slice_below (hwrote : Wrote buf buf' p xs) {q n : ℕ} (hq : q + n ≤ p) :
    (buf'.drop q).take n = (buf.drop q).take n := by
  refine List.ext_getElem? fun i => ?_
  rw [List.getElem?_take, List.getElem?_take, List.getElem?_drop, List.getElem?_drop]
  split
  · exact hwrote.below (q + i) (by omega)
  · rfl

theorem Wrote.slice (hwrote : Wrote buf buf' p xs) : (buf'.drop p).take xs.length = xs := by
  refine List.ext_getElem? fun i => ?_
  rw [List.getElem?_take, List.getElem?_drop]
  split
  · next hi => exact hwrote.words i hi
  · next hi => rw [List.getElem?_eq_none (not_lt.mp hi)]

/-- A backend of `k` records a write and `size` words that has kept these records. -/
structure Kept (o : Settings) (root : Stat) (k size : ℕ) (b : HDF5BackendImpl) (dumped : List (List UInt64)) :
    Prop where
  rootStat : b.rootStat = root
  settings : b.settings = o
  recordSize : b.recordSize = 8 * words o root
  curPtr : b.walk.curPtr = b.bufferedRecords * words o root
  recordsPerWrite : b.recordsPerWrite = k
  bounded : b.bufferedRecords < k ∨ k = 0
  dataBuf : b.walk.dataBuf.length = size
  appended : b.file ++ b.records b.bufferedRecords b.walk.dataBuf = dumped

theorem Kept.slots (hkept : Kept o root k size b dumped) : b.recordSize / 8 = words o root := by
  rw [hkept.recordSize]
  exact Nat.mul_div_cancel_left _ (by decide)

/-- The records of the buffer after one more. -/
theorem Kept.records (hkept : Kept o root k size b dumped) (hwrote : Wrote b.walk.dataBuf buf b.walk.curPtr xs)
    (hxs : xs.length = words o root) :
    b.records (b.bufferedRecords + 1) buf = b.records b.bufferedRecords b.walk.dataBuf ++ [xs] := by
  rw [HDF5BackendImpl.records, HDF5BackendImpl.records, List.range_succ, List.map_append, List.map_singleton, hkept.slots]
  congr 1
  · refine List.map_congr_left fun k hk => hwrote.slice_below ?_
    have hle := Nat.mul_le_mul_right (words o root) (Nat.succ_le_of_lt (List.mem_range.mp hk))
    rw [hkept.curPtr]
    rw [Nat.succ_mul] at hle
    exact hle
  · rw [← hkept.curPtr, ← hxs, hwrote.slice]

/-- A dump with room for it keeps one record more. -/
theorem Kept.dump (hkept : Kept o root k size b dumped) (hdump : Dumped o v root) (hpos : 0 < words o root)
    (hk : k < 2 ^ 32) (hsize : size ≤ (k + 1) * words o root) (hroom : b.walk.curPtr + reach o root ≤ size) (buffered : Bool) :
    ∃ b', b.dump v buffered = .ok b' ∧ Kept o root k size b' (dumped ++ [leaves o v root]) ∧
      (buffered = false → b'.bufferedRecords = 0) := by
  obtain ⟨buf, hwalk, hwrote⟩ := hdump.dump b.walk (hkept.dataBuf.symm ▸ hroom)
  have hbuf : buf.length = size := hwrote.length.trans hkept.dataBuf
  have hslots : (b.bufferedRecords + 1) * words o root ≤ (k + 1) * words o root := by
    have hfits := hwrote.room (hdump.length.symm ▸ hpos)
    rw [hkept.curPtr, hdump.length, hkept.dataBuf] at hfits
    rw [Nat.succ_mul]
    exact hfits.trans hsize
  have hcount := Nat.le_of_mul_le_mul_right hslots hpos
  have hbounded := hkept.bounded
  have hwraps : (b.bufferedRecords + 1) % 2 ^ 32 = b.bufferedRecords + 1 := Nat.mod_eq_of_lt (by omega)
  have hplaced : (b.bufferedRecords + 1) * b.recordSize / 8 = b.walk.curPtr + words o root := by
    rw [hkept.recordSize, hkept.curPtr, Nat.mul_left_comm, Nat.mul_div_cancel_left _ (by decide), Nat.succ_mul]
  have happended : b.file ++ b.records (b.bufferedRecords + 1) buf = dumped ++ [leaves o v root] := by
    rw [hkept.records hwrote hdump.length, ← List.append_assoc, hkept.appended]
  simp only [HDF5BackendImpl.dump, hkept.settings, hkept.rootStat, hwalk, hwraps]
  rw [if_neg (not_not.mpr hplaced)]
  by_cases hflush : b.bufferedRecords + 1 = b.recordsPerWrite ∨ buffered = false
  · rw [if_pos hflush]
    refine ⟨_, rfl, ⟨rfl, rfl, hkept.recordSize, (Nat.zero_mul _).symm, hkept.recordsPerWrite, ?_, hbuf, ?_⟩,
      fun _ => rfl⟩
    · exact (Nat.eq_zero_or_pos k).symm
    · simpa only [HDF5BackendImpl.records, List.range_zero, List.map_nil, List.append_nil] using happended
  · rw [if_neg hflush]
    rw [not_or, hkept.recordsPerWrite] at hflush
    refine ⟨_, rfl, ⟨rfl, rfl, hkept.recordSize, ?_, hkept.recordsPerWrite, ?_, hbuf, happended⟩,
      fun hunbuffered => absurd hunbuffered hflush.2⟩
    · rw [hkept.curPtr, Nat.succ_mul]
    · have hne := hflush.1
      dsimp only
      omega

/-- Every sequence of dumps with room for them is kept. -/
theorem Kept.dumps (hkept : Kept o root k size b dumped) (hdump : ∀ v, Dumped o v root) (hpos : 0 < words o root)
    (hk : k < 2 ^ 32) (hsize : size ≤ (k + 1) * words o root) (ds : List (Values × Bool)) (hroom : b.Roomy ds) :
    ∃ b', b.dumps ds = .ok b' ∧ Kept o root k size b' (dumped ++ ds.map fun d => leaves o d.1 root) ∧
      ∀ v, ds.getLast? = some (v, false) → b'.bufferedRecords = 0 := by
  induction ds generalizing b dumped with
  | nil => exact ⟨b, rfl, by rwa [List.map_nil, List.append_nil], fun _ => nofun⟩
  | cons d ds ih =>
    obtain ⟨v, buffered⟩ := d
    obtain ⟨hroom, hrest⟩ := hroom
    rw [hkept.settings, hkept.rootStat, hkept.dataBuf] at hroom
    obtain ⟨b₁, hfirst, hkept₁, hflushed⟩ := hkept.dump (hdump v) hpos hk hsize hroom buffered
    obtain ⟨b', hmore, hkept', hlast⟩ := ih hkept₁ (hrest b₁ hfirst)
    refine ⟨b', ?_, ?_, fun v' hv' => ?_⟩
    · rw [HDF5BackendImpl.dumps, hfirst]
      exact hmore
    · rwa [List.append_assoc] at hkept'
    · cases ds with
      | nil =>
        cases hmore
        have hpair := Prod.mk.inj (Option.some.inj hv')
        exact hflushed hpair.2
      | cons d ds => exact hlast v' (by rwa [List.getLast?_cons_cons] at hv')

/-- There is always room for a reach within the record and the spare words. -/
theorem Kept.roomy (hkept : Kept o root k size b dumped) (hdump : ∀ v, Dumped o v root) (hpos : 0 < words o root)
    (hk : k < 2 ^ 32) (hsize : size ≤ (k + 1) * words o root) (hkpos : 0 < k)
    (hreach : (k - 1) * words o root + reach o root ≤ size) (ds : List (Values × Bool)) : b.Roomy ds := by
  induction ds generalizing b dumped with
  | nil => exact trivial
  | cons d ds ih =>
    obtain ⟨v, buffered⟩ := d
    have hroom : b.walk.curPtr + reach o root ≤ size := by
      have hbounded := hkept.bounded
      have hle := Nat.mul_le_mul_right (words o root) (show b.bufferedRecords ≤ k - 1 by omega)
      rw [hkept.curPtr]
      omega
    refine ⟨?_, fun b' hb' => ?_⟩
    · rwa [hkept.settings, hkept.rootStat, hkept.dataBuf]
    · obtain ⟨b₁, hfirst, hkept₁, -⟩ := hkept.dump (hdump v) hpos hk hsize hroom buffered
      cases hfirst.symm.trans hb'
      exact ih hkept₁

variable {Hid : Type} {h : HDF5 Hid} {t : Hid} {types : List Hid}

theorem Describes.read (ht : Describes h t xs.length) : h.read t xs = xs.map some := by
  rw [HDF5.read, ht.offsets, List.map_map]
  refine List.ext_getElem (by simp) fun i hi hi' => ?_
  rw [List.length_map] at hi'
  simp only [List.getElem_map, List.getElem_range, Function.comp_apply]
  rw [Nat.mul_div_cancel_left i (by decide), List.getElem?_eq_getElem hi']

theorem bufBytes_eq (k n : ℕ) :
    HDF5BackendImpl.bufBytes o k (8 * n) = 8 * ((if o.sumRegularAggregates = true then k + 1 else k) * n) := by
  rw [HDF5BackendImpl.bufBytes]
  split <;> ring

variable [DecidableEq Hid]

/-- A new backend has kept nothing. -/
theorem new_ok (ht : Describes h t (words o root)) (haccepted : getH5Type h o root [] = .ok (t, types))
    {bytesPerWrite : ℕ}
    (htable : h.H5TBmake_table (h.H5Tget_size t) t (HDF5BackendImpl.perWrite bytesPerWrite (h.H5Tget_size t)) = true) :
    ∃ b, HDF5BackendImpl.new h root bytesPerWrite o = .ok b ∧
      Kept o root (HDF5BackendImpl.perWrite bytesPerWrite (h.H5Tget_size t))
        (HDF5BackendImpl.bufBytes o (HDF5BackendImpl.perWrite bytesPerWrite (h.H5Tget_size t)) (h.H5Tget_size t) % 2 ^ 64 / 8) b [] := by
  have hpos := ht.pos
  have hsize : h.H5Tget_size t ≠ 0 := by
    rw [ht.size]
    omega
  simp only [HDF5BackendImpl.new, haccepted, if_neg hsize, htable, Bool.true_eq_false, if_false]
  exact ⟨_, rfl, rfl, rfl, ht.size, (Nat.zero_mul _).symm, rfl, (Nat.eq_zero_or_pos _).symm, List.length_replicate, rfl⟩

theorem bufBytes_le (k n : ℕ) : HDF5BackendImpl.bufBytes o k (8 * n) % 2 ^ 64 / 8 ≤ (k + 1) * n := by
  refine Nat.div_le_of_le_mul ((Nat.mod_le _ _).trans ?_)
  rw [bufBytes_eq]
  split
  · exact le_rfl
  · exact Nat.mul_le_mul_left 8 (Nat.mul_le_mul_right n (Nat.le_succ k))

/-- The backend records every sequence of dumps that start with room. -/
theorem dumps_recorded (hdoc : h.Documented) {name : String} {isRegular : Bool} {children : List Stat}
    (hroot : WellShaped o (.aggregate name isRegular children))
    (haccepted : getH5Type h o (.aggregate name isRegular children) [] = .ok (t, types)) {bytesPerWrite : ℕ}
    (htable : h.H5TBmake_table (h.H5Tget_size t) t (HDF5BackendImpl.perWrite bytesPerWrite (h.H5Tget_size t)) = true) :
    ∃ b, HDF5BackendImpl.new h (.aggregate name isRegular children) bytesPerWrite o = .ok b ∧
      ∀ ds, b.Roomy ds → ∃ b', b.dumps ds = .ok b' ∧ Recorded h t b' ds := by
  have ht := getH5Type_describes hdoc hroot rfl haccepted
  obtain ⟨b, hnew, hkept⟩ := new_ok ht haccepted htable
  refine ⟨b, hnew, fun ds hroom => ?_⟩
  have hdump : ∀ v, Dumped o v (.aggregate name isRegular children) :=
    fun v => dumpWalk_ok hdoc hroot fun _ => ⟨[], t, types, haccepted⟩
  obtain ⟨b', hdumps, hkept', hflushed⟩ :=
    hkept.dumps hdump ht.pos (Nat.mod_lt _ (by decide)) (ht.size.symm ▸ bufBytes_le _ _) ds hroom
  refine ⟨b', hdumps, ?_, ?_, hflushed⟩
  · rw [hkept'.curPtr, ht.size]
    exact Nat.mul_left_comm ..
  · rw [hkept'.appended, hkept'.settings, hkept'.rootStat, List.nil_append, List.map_map]
    refine List.map_congr_left fun d _ => ?_
    rw [Function.comp_apply, Describes.read]
    rw [(hdump d.1).length]
    exact ht

theorem reachAll_eq {children : List Stat} (hchildren : ∀ c ∈ children, reach o c = words o c) :
    reachAll o children = wordsAll o children := by
  induction children with
  | nil => rfl
  | cons c cs ih =>
    rw [reachAll, wordsAll, hchildren c List.mem_cons_self, ih fun d hd => hchildren d (List.mem_cons_of_mem c hd)]
    exact max_eq_right (Nat.le_add_right ..)

/-- Without sums nothing is written past the record. -/
theorem reach_eq (hsums : o.sumRegularAggregates = false) (hs : WellShaped o root) : reach o root = words o root := by
  have hboth {isRegular : Bool} : ¬ (isRegular = true ∧ o.sumRegularAggregates = true) :=
    fun hboth => Bool.eq_false_iff.mp hsums hboth.2
  induction hs with
  | scalar => rfl
  | vector => rfl
  | regular _ _ _ ih => rw [reach, words, if_neg hboth, if_neg hboth, reachAll_eq ih]
  | compound _ _ _ ih => rw [reach, words, if_neg hboth, if_neg hboth, reachAll_eq ih]

/-- There is always room if the sums reach no further than a record past the record. -/
theorem new_roomy (hdoc : h.Documented) {name : String} {isRegular : Bool} {children : List Stat}
    (hroot : WellShaped o (.aggregate name isRegular children))
    (haccepted : getH5Type h o (.aggregate name isRegular children) [] = .ok (t, types)) {bytesPerWrite : ℕ}
    (htable : h.H5TBmake_table (h.H5Tget_size t) t (HDF5BackendImpl.perWrite bytesPerWrite (h.H5Tget_size t)) = true)
    (hpos : 0 < HDF5BackendImpl.perWrite bytesPerWrite (h.H5Tget_size t))
    (hwrap : HDF5BackendImpl.bufBytes o (HDF5BackendImpl.perWrite bytesPerWrite (h.H5Tget_size t)) (h.H5Tget_size t) <
      2 ^ 64)
    (hreach : o.sumRegularAggregates = true →
      reach o (.aggregate name isRegular children) ≤ 2 * words o (.aggregate name isRegular children))
    (ds : List (Values × Bool)) :
    ∃ b, HDF5BackendImpl.new h (.aggregate name isRegular children) bytesPerWrite o = .ok b ∧ b.Roomy ds := by
  have ht := getH5Type_describes hdoc hroot rfl haccepted
  obtain ⟨b, hnew, hkept⟩ := new_ok ht haccepted htable
  have hdump : ∀ v, Dumped o v (.aggregate name isRegular children) :=
    fun v => dumpWalk_ok hdoc hroot fun _ => ⟨[], t, types, haccepted⟩
  refine ⟨b, hnew, hkept.roomy hdump ht.pos (Nat.mod_lt _ (by decide)) (ht.size.symm ▸ bufBytes_le _ _) hpos ?_ ds⟩
  rw [Nat.mod_eq_of_lt hwrap]
  generalize HDF5BackendImpl.perWrite bytesPerWrite (h.H5Tget_size t) = k at hpos
  rw [ht.size, bufBytes_eq, Nat.mul_div_cancel_left _ (by decide)]
  obtain ⟨k, rfl⟩ := Nat.exists_eq_succ_of_ne_zero hpos.ne'
  rw [Nat.succ_sub_one]
  by_cases hsums : o.sumRegularAggregates = true
  · have hreach := hreach hsums
    rw [if_pos hsums, Nat.succ_mul, Nat.succ_mul]
    omega
  · rw [if_neg hsums, reach_eq (Bool.eq_false_iff.mpr hsums) hroot, Nat.succ_mul]

end Runs

/-- A type by its size, its numbers and how it was made. -/
structure MadeType where
  size : ℕ
  offsets : List ℕ
  made : List String
  deriving DecidableEq

/-- HDF5 as it is documented, with names for the types that are made. -/
def documentedHDF5 : HDF5 MadeType where
  H5T_NATIVE_ULONG := ⟨8, [0], ["ulong"]⟩
  H5Tarray_create2 t n :=
    ⟨n * t.size, (List.range n).flatMap fun i => t.offsets.map (i * t.size + ·), toString n :: "array" :: t.made⟩
  compound size members :=
    ⟨size, members.flatMap fun m => m.2.2.offsets.map (m.2.1 + ·),
      toString members.length :: "compound" :: members.flatMap fun m => m.1 :: m.2.2.made⟩
  H5Tequal t u := t = u
  H5Tget_size := MadeType.size
  offsets := MadeType.offsets
  H5TBmake_table _ _ recordsPerWrite := 0 < recordsPerWrite

theorem documentedHDF5_documented : documentedHDF5.Documented where
  size_ulong := rfl
  size_array _ _ := rfl
  size_compound _ _ _ _ _ := rfl
  size_equal _ _ hequal := congrArg MadeType.size (of_decide_eq_true hequal)
  offsets_ulong := rfl
  offsets_array _ _ := rfl
  offsets_compound _ _ _ _ _ := rfl
  offsets_equal _ _ hequal := congrArg MadeType.offsets (of_decide_eq_true hequal)

/-- Two threads with two counters each, after a number of phases. -/
def threads : Stat :=
  .aggregate "root" false
    [.scalar "phase" 0,
      .aggregate "thread" true
        [.aggregate "thread-0" false [.scalar "cycles" 1, .scalar "instrs" 2],
          .aggregate "thread-1" false [.scalar "cycles" 3, .scalar "instrs" 4]]]

theorem wellShaped_threads : WellShaped ⟨true, true⟩ threads := by
  have hthread : ∀ name id id', WellShaped ⟨true, true⟩
      (.aggregate name false [.scalar "cycles" id, .scalar "instrs" id']) := by
    intro name id id'
    refine .compound ⟨_, List.mem_cons_self, rfl⟩ (by simp [skipStat, Stat.name]) ?_
    exact List.forall_mem_cons.mpr ⟨.scalar, List.forall_mem_cons.mpr ⟨.scalar, nofun⟩⟩
  refine .compound ⟨_, List.mem_cons_self, rfl⟩ (by simp [skipStat, Stat.name]) ?_
  refine List.forall_mem_cons.mpr ⟨.scalar, List.forall_mem_cons.mpr ⟨.regular ?_ ?_ ?_, nofun⟩⟩
  · exact List.forall_mem_cons.mpr ⟨rfl, List.forall_mem_cons.mpr ⟨rfl, nofun⟩⟩
  · exact fun _ => .inr (by decide)
  · exact List.forall_mem_cons.mpr ⟨hthread .., List.forall_mem_cons.mpr ⟨hthread .., nofun⟩⟩

/-- The type of a record of the threads. -/
def threadsType : MadeType :=
  documentedHDF5.compound 24 [("phase", 0, documentedHDF5.H5T_NATIVE_ULONG),
    ("thread", 8, documentedHDF5.compound 16
      [("cycles", 0, documentedHDF5.H5T_NATIVE_ULONG), ("instrs", 8, documentedHDF5.H5T_NATIVE_ULONG)])]

theorem dumps_recorded_threads :
    ∃ b, HDF5BackendImpl.new documentedHDF5 threads 100 ⟨true, true⟩ = .ok b ∧
      ∀ ds, ∃ b', b.dumps ds = .ok b' ∧ Recorded documentedHDF5 threadsType b' ds := by
  obtain ⟨b, hnew, hrecorded⟩ : ∃ b, HDF5BackendImpl.new documentedHDF5 threads 100 ⟨true, true⟩ = .ok b ∧
      ∀ ds, b.Roomy ds → ∃ b', b.dumps ds = .ok b' ∧ Recorded documentedHDF5 threadsType b' ds :=
    dumps_recorded documentedHDF5_documented wellShaped_threads rfl rfl
  refine ⟨b, hnew, fun ds => hrecorded ds ?_⟩
  obtain ⟨b', hnew', hroomy⟩ : ∃ b', HDF5BackendImpl.new documentedHDF5 threads 100 ⟨true, true⟩ = .ok b' ∧
      b'.Roomy ds :=
    new_roomy documentedHDF5_documented wellShaped_threads (show getH5Type documentedHDF5 ⟨true, true⟩ threads [] =
      .ok (threadsType, _) from rfl) rfl (by decide) (by decide) (fun _ => by decide) ds
  cases hnew.symm.trans hnew'
  exact hroomy

/-- Two nested aggregates with one scalar below each. -/
def nested : Stat :=
  .aggregate "root" false
    [.aggregate "outer" true
      [.aggregate "inner" true [.scalar "count" 0, .scalar "count" 1],
        .aggregate "inner" true [.scalar "count" 2, .scalar "count" 3]]]

/-- Nested sums write past the buffer: the type is accepted, and the first dump fails. -/
theorem nested_out_of_buffer :
    (∃ t types, getH5Type documentedHDF5 ⟨false, true⟩ nested [] = .ok (t, types)) ∧
    ∃ b, HDF5BackendImpl.new documentedHDF5 nested 0 ⟨false, true⟩ = .ok b ∧
      b.dump ⟨fun _ => 1, fun _ _ => 0⟩ false = .error .outOfBuffer :=
  ⟨⟨_, _, rfl⟩, _, rfl, rfl⟩

end Zsim.StatRecords
