import Zsim.AccessTracing
import Zsim.StableMerge
import Mathlib.Data.List.Range
import Mathlib.Tactic.Linarith

/-!
# Sorting a trace

`sorttrace` reads a trace until it has a record of every child, writes the
earliest ones while that is so, and writes what is left when the trace ends.
The children's heads are in a priority queue, by their negated cycles. This is
a stable merge, as long as there is anything to sort: the progress report at
the end divides by the number of records.
-/

namespace Zsim.SortTrace

open AccessTracing StableMerge

/-- The ways `main` can fail. -/
inductive SortFailure where
  /-- A failure of the reader or of the writer. -/
  | trace (e : TraceFailure)
  /-- A division by zero in `printProgress`. -/
  | divisionByZero
  /-- An index past the end of `accs`. -/
  | noSuchChild
  /-- `heads.size() <= numChildren` -/
  | tooManyHeads
  /-- `!accs[child]->empty()`, or no queue at all. -/
  | emptyQueue
  /-- `readRecords == writtenRecords`, `readRecords == totalRecords` -/
  | miscounted
  /-- A loop takes more turns than there are records to account for. -/
  | endless
  deriving DecidableEq, Repr

/-- An element of `heads`: the negative cycle and the child. -/
abbrev Head := Int64 × UInt32

/-- The order of pairs in the priority queue. -/
def Head.le (a b : Head) : Bool := a.1 < b.1 || (a.1 == b.1 && a.2 ≤ b.2)

/-- `heads.push`; the greatest element comes first. -/
def push (x : Head) : List Head → List Head
  | [] => [x]
  | h :: hs => if h.le x then x :: h :: hs else h :: push x hs

/-- `-acc.reqCycle`, as it becomes an `int64_t`. -/
def negCycle (acc : AccessRecord) : Int64 := (-acc.reqCycle).toInt64

/-- The local variables of `main`. -/
structure Sorter where
  tr : AccessTraceReader
  tw : AccessTraceWriter
  /-- `accs`, none for null pointers. -/
  accs : UInt32 → Option (List AccessRecord)
  heads : List Head
  readRecords : ℕ
  writtenRecords : ℕ
  numChildren : UInt32
  totalRecords : ℕ

namespace Sorter

/-- `printProgress`. -/
def printProgress (s : Sorter) : Except SortFailure Sorter :=
  if s.totalRecords = 0 then .error .divisionByZero else .ok s

/-- Report every 1024 records. -/
def report (s : Sorter) (records : ℕ) : Except SortFailure Sorter :=
  if records % 1024 = 0 then s.printProgress else .ok s

/-- The queue of a child gets a record, and `heads` its head if it had none. -/
def enqueue (s : Sorter) (acc : AccessRecord) : Except SortFailure Sorter :=
  if ¬ acc.childId < s.numChildren then .error .noSuchChild
  else
    match s.accs acc.childId with
    | none => .ok { s with
        accs := Function.update s.accs acc.childId (some [acc])
        heads := push (negCycle acc, acc.childId) s.heads }
    | some queue => .ok { s with accs := Function.update s.accs acc.childId (some (queue ++ [acc])) }

/-- One record is read. -/
def readOne (s : Sorter) : Except SortFailure Sorter :=
  match s.tr.read with
  | .error e => .error (.trace e)
  | .ok (acc, tr) =>
    match { s with tr := tr, readRecords := s.readRecords + 1 }.report (s.readRecords + 1) with
    | .error e => .error e
    | .ok s => s.enqueue acc

/-- The loop that reads at least a few records, with the turns it has left. -/
def readSome : ℕ → Sorter → Except SortFailure Sorter
  | 0, s => .ok s
  | turns + 1, s =>
    match s.readOne with
    | .error e => .error e
    | .ok s => if s.tr.empty = true then .ok s else readSome turns s

/-- The queue of a child loses its head; the next one becomes the child's head. -/
def dequeue (s : Sorter) (child : UInt32) (queue : List AccessRecord) : Sorter :=
  match queue with
  | [] => { s with accs := Function.update s.accs child none }
  | acc :: _ => { s with
      accs := Function.update s.accs child (some queue)
      heads := push (negCycle acc, acc.childId) s.heads }

/-- The head of all heads is written. -/
def writeOne (s : Sorter) : Except SortFailure Sorter :=
  match s.heads with
  | [] => .error .emptyQueue
  | next :: heads =>
    match s.accs next.2 with
    | some (acc :: queue) =>
      match s.tw.write acc with
      | .error e => .error (.trace e)
      | .ok tw =>
        match { s with heads := heads, tw := tw, writtenRecords := s.writtenRecords + 1 }.report
          (s.writtenRecords + 1) with
        | .error e => .error e
        | .ok s => .ok (s.dequeue next.2 queue)
    | _ => .error .emptyQueue

/-- The condition of the inner loop: every child has a head, or no record is to come. -/
def writes (s : Sorter) : Bool :=
  s.heads.length == s.numChildren.toNat || (s.tr.empty && decide (0 < s.heads.length))

/-- The loop that writes, with the turns it may take. -/
def writeSome : ℕ → Sorter → Except SortFailure Sorter
  | turns, s =>
    if s.writes = true then
      match turns with
      | 0 => .error .endless
      | turns + 1 =>
        match s.writeOne with
        | .error e => .error e
        | .ok s => writeSome turns s
    else .ok s

/-- One turn of the outer loop. -/
def turn (s : Sorter) : Except SortFailure Sorter :=
  match if s.tr.empty = false ∧ s.heads.length < s.numChildren.toNat then s.readSome 1024 else .ok s with
  | .error e => .error e
  | .ok s =>
    if ¬ s.heads.length ≤ s.numChildren.toNat then .error .tooManyHeads
    else s.writeSome s.totalRecords

/-- The outer loop, with the turns it may take. -/
def loop : ℕ → Sorter → Except SortFailure Sorter
  | turns, s =>
    if s.tr.empty = false ∨ 0 < s.heads.length then
      match turns with
      | 0 => .error .endless
      | turns + 1 =>
        match s.turn with
        | .error e => .error e
        | .ok s => loop turns s
    else .ok s

/-- The end of `main`, from the last report on. -/
def finish (s : Sorter) : Except SortFailure TraceFile :=
  match s.printProgress with
  | .error e => .error e
  | .ok s =>
    if s.readRecords ≠ s.writtenRecords ∨ s.readRecords ≠ s.totalRecords then .error .miscounted
    else
      match s.tw.dump false with
      | .error e => .error (.trace e)
      | .ok tw => .ok tw.file

end Sorter

/-- `main`: the output trace. -/
def sorttrace (input : TraceFile) : Except SortFailure TraceFile :=
  match AccessTraceReader.new input with
  | .error e => .error (.trace e)
  | .ok tr =>
    let s : Sorter := ⟨tr, .new tr.numChildren, fun _ => none, [], 0, 0, tr.numChildren, tr.numRecords⟩
    match s.loop (2 * tr.numRecords) with
    | .error e => .error e
    | .ok s => s.finish

/-- The records of a child. -/
def ofChild (child : UInt32) (accs : List PackedAccessRecord) : List PackedAccessRecord :=
  accs.filter fun p => p.childId.toUInt32 = child

/-- A trace to be sorted: finished, of records the writer makes, and in order
child by child. -/
structure Sortable (trace : TraceFile) : Prop where
  finished : trace.finished = true
  children : ∀ p ∈ trace.accs, p.childId.toUInt32 < trace.numChildren
  types : ∀ p ∈ trace.accs, p.type < 4
  cycles : ∀ p ∈ trace.accs, p.reqCycle.toNat < 2 ^ 63
  ordered : ∀ child, (ofChild child trace.accs).Pairwise fun p q => p.reqCycle ≤ q.reqCycle

/-- The stably sorted trace. -/
structure SortedTrace (input output : TraceFile) : Prop where
  finished : output.finished = true
  numChildren : output.numChildren = input.numChildren
  perm : output.accs.Perm input.accs
  sorted : output.accs.Pairwise fun p q => p.reqCycle ≤ q.reqCycle
  stable : ∀ child, ofChild child output.accs = ofChild child input.accs

section Heads

variable {x a b c : Head} {hs : List Head}

theorem Head.le_iff : a.le b = true ↔
    a.1.toInt < b.1.toInt ∨ (a.1.toInt = b.1.toInt ∧ a.2.toNat ≤ b.2.toNat) := by
  simp only [Head.le, Bool.or_eq_true, Bool.and_eq_true, decide_eq_true_eq, beq_iff_eq, Int64.lt_iff_toInt_lt,
    UInt32.le_iff_toNat_le, Int64.toInt_inj]

theorem push_perm (x : Head) (hs : List Head) : (push x hs).Perm (x :: hs) := by
  induction hs with
  | nil => exact List.Perm.refl _
  | cons h hs ih =>
    rw [push]
    split
    · exact List.Perm.refl _
    · exact (ih.cons h).trans (List.Perm.swap x h hs)

/-- The priority queue stays in order. -/
theorem push_sorted (hsorted : hs.Pairwise fun a b => b.le a = true) :
    (push x hs).Pairwise fun a b => b.le a = true := by
  induction hs with
  | nil => exact List.pairwise_singleton _ _
  | cons h hs ih =>
    obtain ⟨hbelow, hrest⟩ := List.pairwise_cons.mp hsorted
    rw [push]
    split
    · next hle =>
      refine List.pairwise_cons.mpr ⟨List.forall_mem_cons.mpr ⟨hle, fun b hb => ?_⟩, hsorted⟩
      have hbh := hbelow b hb
      rw [Head.le_iff] at hle hbh ⊢
      omega
    · next hlt =>
      refine List.pairwise_cons.mpr ⟨fun b hb => ?_, ih hrest⟩
      rcases List.mem_cons.mp ((push_perm x hs).mem_iff.mp hb) with rfl | hb
      · rw [Head.le_iff] at hlt ⊢
        omega
      · exact hbelow b hb

/-- Cycles below 2^63 survive the negation. -/
theorem toInt_negCycle (acc : AccessRecord) (hcycle : acc.reqCycle.toNat < 2 ^ 63) :
    (negCycle acc).toInt = -(acc.reqCycle.toNat : ℤ) := by
  have hneg := UInt64.toNat_neg acc.reqCycle
  have hlt := acc.reqCycle.toNat_lt
  have hint : (negCycle acc).toInt = if 2 * (-acc.reqCycle).toNat < 2 ^ 64 then ((-acc.reqCycle).toNat : ℤ)
      else (-acc.reqCycle).toNat - (2 ^ 64 : ℕ) := rfl
  rw [hint, hneg]
  simp only [UInt64.size]
  split <;> omega

end Heads

/-- The child of a packed record. -/
def childOf (p : PackedAccessRecord) : UInt32 := p.childId.toUInt32

/-- The key a trace is sorted by. -/
def cycleOf (p : PackedAccessRecord) : ℕ := p.reqCycle.toNat

/-- The pointer to the queue of a child. -/
def pending : List PackedAccessRecord → Option (List AccessRecord)
  | [] => none
  | p :: ps => some (p.unpack :: ps.map PackedAccessRecord.unpack)

section Merging

variable {trace : TraceFile} {s : Sorter} {m : State PackedAccessRecord UInt32}

/-- The variables of `main` represent the state of a merge. -/
structure Rel (trace : TraceFile) (s : Sorter) (m : State PackedAccessRecord UInt32) : Prop where
  inv : Inv childOf cycleOf trace.accs m
  reads : Reads s.tr m.unread
  writes : Writes s.tw m.out
  outChildren : s.tw.file.numChildren = trace.numChildren
  accs : s.accs = pending ∘ m.queue
  heads : ∀ h, h ∈ s.heads ↔ ∃ p, (m.queue h.2).head? = some p ∧ h.1 = negCycle p.unpack
  sorted : s.heads.Pairwise fun a b => b.le a = true
  nodup : (s.heads.map Prod.snd).Nodup
  numChildren : s.numChildren = trace.numChildren
  total : s.totalRecords = trace.accs.length
  readRecords : s.readRecords + m.unread.length = trace.accs.length
  writtenRecords : s.writtenRecords = m.out.length

/-- The order of the trace, in the terms of the merge. -/
theorem Sortable.sourceSorted (htrace : Sortable trace) : SourceSorted childOf cycleOf trace.accs :=
  fun c => (htrace.ordered c).imp fun h => UInt64.le_iff_toNat_le.mp h

theorem Rel.waiting (h : Rel trace s m) {p : PackedAccessRecord}
    (hp : p ∈ m.queue (childOf p) ∨ p ∈ m.unread) : p ∈ trace.accs := h.inv.mem_input hp

/-- A record of a writer is written as it was read. -/
theorem pack_unpack {p : PackedAccessRecord} (htype : p.type < 4) : p.unpack.pack = p := by
  obtain ⟨lineAddr, reqCycle, latency, childId, type⟩ := p
  have hchild : childId.toUInt32.toUInt16 = childId := UInt16.toUInt16_toUInt32 childId
  have htype : (typeCode (typeOf type)).toUInt16 = type := by
    have hlt : type.toNat < 4 := UInt16.lt_iff_toNat_lt.mp htype
    have hcases : type = 0 ∨ type = 1 ∨ type = 2 ∨ type = 3 := by
      simp only [← UInt16.toNat_inj]
      change type.toNat = 0 ∨ type.toNat = 1 ∨ type.toNat = 2 ∨ type.toNat = 3
      omega
    rcases hcases with rfl | rfl | rfl | rfl <;> rfl
  simp only [PackedAccessRecord.unpack, AccessRecord.pack, hchild, htype]

theorem report_ok {records : ℕ} (htotal : s.totalRecords ≠ 0) : s.report records = .ok s := by
  rw [Sorter.report, Sorter.printProgress, if_neg htotal]
  split <;> rfl

theorem Rel.total_ne (h : Rel trace s m) (hne : trace.accs ≠ []) : s.totalRecords ≠ 0 := by
  rw [h.total]
  exact mt List.length_eq_zero_iff.mp hne

/-- The reader's next record enters the queue of its child. -/
theorem Rel.readOne (h : Rel trace s m) (htrace : Sortable trace) {p : PackedAccessRecord}
    {unread : List PackedAccessRecord} (hp : m.unread = p :: unread) :
    ∃ s', s.readOne = .ok s' ∧ Rel trace s' (m.read childOf p unread) := by
  have hmem : p ∈ trace.accs := h.waiting (.inr (hp ▸ List.mem_cons_self))
  have hreads := h.reads
  rw [hp] at hreads
  obtain ⟨tr, hread, hreads', -, -⟩ := hreads.read
  have hchild : childOf p < s.numChildren := h.numChildren ▸ htrace.children p hmem
  have hread' : s.readRecords + 1 + unread.length = trace.accs.length := by
    have hcount := h.readRecords
    rw [hp, List.length_cons] at hcount
    omega
  have hreport : { s with tr := tr, readRecords := s.readRecords + 1 }.report (s.readRecords + 1) =
      .ok { s with tr := tr, readRecords := s.readRecords + 1 } :=
    report_ok (h.total_ne (List.ne_nil_of_mem hmem))
  have hunpack : p.unpack.childId = childOf p := rfl
  have haccs : s.accs (childOf p) = pending (m.queue (childOf p)) := congrFun h.accs (childOf p)
  simp only [Sorter.readOne, hread, hreport, Sorter.enqueue, hunpack, if_neg (not_not.mpr hchild), haccs]
  cases hqueue : m.queue (childOf p) with
  | nil =>
    have hnothead : ∀ a ∈ s.heads, a.2 ≠ childOf p := by
      intro a ha hac
      obtain ⟨q, hq, -⟩ := (h.heads a).mp ha
      rw [hac, hqueue] at hq
      cases hq
    refine ⟨_, rfl, h.inv.read hp, hreads', h.writes, h.outChildren, ?_, fun a => ?_, push_sorted h.sorted, ?_,
      h.numChildren, h.total, hread', h.writtenRecords⟩
    · simp only [State.read]
      rw [Function.comp_update, h.accs, hqueue]
      rfl
    · rw [(push_perm _ _).mem_iff, List.mem_cons, h.heads a]
      simp only [State.read]
      by_cases ha : a.2 = childOf p
      · rw [ha, Function.update_self, hqueue]
        simp only [List.head?_nil, List.nil_append, List.head?_cons, Option.some.injEq, exists_eq_left', reduceCtorEq,
          false_and, exists_false, or_false]
        rw [Prod.ext_iff]
        exact ⟨fun hpair => hpair.1, fun hcycle => ⟨hcycle, ha⟩⟩
      · rw [Function.update_of_ne ha]
        refine ⟨fun hcases => ?_, .inr⟩
        rcases hcases with rfl | hq
        · exact absurd rfl ha
        · exact hq
    · rw [((push_perm _ _).map Prod.snd).nodup_iff, List.map_cons, List.nodup_cons]
      refine ⟨fun hin => ?_, h.nodup⟩
      obtain ⟨a, ha, hac⟩ := List.mem_map.mp hin
      exact hnothead a ha hac
  | cons q qs =>
    refine ⟨_, rfl, h.inv.read hp, hreads', h.writes, h.outChildren, ?_, fun a => ?_, h.sorted, h.nodup,
      h.numChildren, h.total, hread', h.writtenRecords⟩
    · have hpending : pending (q :: qs ++ [p]) = some (q.unpack :: qs.map PackedAccessRecord.unpack ++ [p.unpack]) := by
        rw [List.cons_append, pending, List.map_append]
        rfl
      simp only [State.read]
      rw [Function.comp_update, h.accs, hqueue, hpending]
    · rw [h.heads a]
      simp only [State.read]
      by_cases ha : a.2 = childOf p
      · rw [ha, Function.update_self, hqueue]
        rfl
      · rw [Function.update_of_ne ha]

/-- The loop reads at least one record. -/
theorem Rel.readSome (h : Rel trace s m) (htrace : Sortable trace) (turns : ℕ) (hunread : m.unread ≠ []) :
    ∃ s' m', s.readSome (turns + 1) = .ok s' ∧ Rel trace s' m' ∧ m'.out = m.out ∧
      m'.unread.length < m.unread.length := by
  induction turns generalizing s m with
  | zero =>
    obtain ⟨p, unread, hp⟩ := List.exists_cons_of_ne_nil hunread
    obtain ⟨s', hread, h'⟩ := h.readOne htrace hp
    refine ⟨s', _, ?_, h', rfl, by rw [hp]; exact Nat.lt_succ_self _⟩
    simp only [Sorter.readSome, hread, ite_self]
  | succ turns ih =>
    obtain ⟨p, unread, hp⟩ := List.exists_cons_of_ne_nil hunread
    obtain ⟨s', hread, h'⟩ := h.readOne htrace hp
    have hless : unread.length < m.unread.length := by
      rw [hp]
      exact Nat.lt_succ_self _
    rw [Sorter.readSome, hread]
    by_cases hempty : s'.tr.empty = true
    · exact ⟨s', _, if_pos hempty, h', rfl, hless⟩
    · obtain ⟨s'', m'', hmore, h'', hout, hless'⟩ := ih h' (mt h'.reads.empty_iff.mpr hempty)
      exact ⟨s'', m'', (if_neg hempty).trans hmore, h'', hout, hless'.trans hless⟩

/-- A child has one head at most. -/
theorem Rel.children_subperm (h : Rel trace s m) (htrace : Sortable trace) :
    (s.heads.map fun a => a.2.toNat).Subperm (List.range s.numChildren.toNat) := by
  refine List.subperm_of_subset ?_ fun n hn => ?_
  · have hmap : (s.heads.map fun a => a.2.toNat) = (s.heads.map Prod.snd).map UInt32.toNat := by
      rw [List.map_map]
      rfl
    rw [hmap]
    exact h.nodup.map fun _ _ => UInt32.toNat_inj.mp
  · obtain ⟨a, ha, rfl⟩ := List.mem_map.mp hn
    obtain ⟨p, hp, -⟩ := (h.heads a).mp ha
    have hqueued := List.mem_of_head? hp
    have hchild := h.inv.own a.2 p hqueued
    have hlt := htrace.children p (h.waiting (.inl (hchild.symm ▸ hqueued)))
    rw [List.mem_range, h.numChildren, ← hchild]
    exact UInt32.lt_iff_toNat_lt.mp hlt

theorem Rel.heads_le (h : Rel trace s m) (htrace : Sortable trace) : s.heads.length ≤ s.numChildren.toNat := by
  have hlength := (h.children_subperm htrace).length_le
  rwa [List.length_map, List.length_range] at hlength

/-- With as many heads as children, every child has a record waiting. -/
theorem Rel.full (h : Rel trace s m) (htrace : Sortable trace) (hfull : s.heads.length = s.numChildren.toNat)
    {c : UInt32} (hc : c < s.numChildren) : m.queue c ≠ [] := by
  have hperm := (h.children_subperm htrace).perm_of_length_le (by rw [List.length_map, List.length_range, hfull])
  have hmem := hperm.mem_iff.mpr (List.mem_range.mpr (UInt32.lt_iff_toNat_lt.mp hc))
  obtain ⟨a, ha, hac⟩ := List.mem_map.mp hmem
  obtain ⟨p, hp, -⟩ := (h.heads a).mp ha
  rw [← UInt32.toNat_inj.mp hac]
  exact List.ne_nil_of_mem (List.mem_of_head? hp)

/-- When records are written, none that is still to come is of a child with an empty queue. -/
theorem Rel.ready (h : Rel trace s m) (htrace : Sortable trace) (hwrites : s.writes = true) :
    ∀ p ∈ m.unread, m.queue (childOf p) ≠ [] := by
  intro p hp
  rw [Sorter.writes, Bool.or_eq_true, beq_iff_eq, Bool.and_eq_true] at hwrites
  rcases hwrites with hfull | ⟨hempty, -⟩
  · exact h.full htrace hfull (h.numChildren ▸ htrace.children p (h.waiting (.inr hp)))
  · rw [h.reads.empty_iff.mp hempty] at hp
    cases hp

theorem Rel.heads_ne (h : Rel trace s m) (htrace : Sortable trace) (hne : trace.accs ≠ [])
    (hwrites : s.writes = true) : s.heads ≠ [] := by
  intro hnil
  obtain ⟨p, accs, hp⟩ := List.exists_cons_of_ne_nil hne
  have hlt := UInt32.lt_iff_toNat_lt.mp (htrace.children p (hp ▸ List.mem_cons_self))
  rw [Sorter.writes, hnil, h.numChildren] at hwrites
  simp only [List.length_nil, Nat.lt_irrefl, decide_false, Bool.and_false, Bool.or_false, beq_iff_eq] at hwrites
  omega

/-- The top of the heap is the earliest head. -/
theorem Rel.least (h : Rel trace s m) (htrace : Sortable trace) {next : Head} {heads : List Head}
    (hheads : s.heads = next :: heads) {p : PackedAccessRecord} (hp : (m.queue next.2).head? = some p)
    (hnext : next.1 = negCycle p.unpack) :
    ∀ d q, (m.queue d).head? = some q → cycleOf p ≤ cycleOf q := by
  have hcycle : ∀ d q, (m.queue d).head? = some q → q.reqCycle.toNat < 2 ^ 63 := by
    intro d q hq
    have hqueued := List.mem_of_head? hq
    exact htrace.cycles q (h.waiting (.inl ((h.inv.own d q hqueued).symm ▸ hqueued)))
  intro d q hq
  have hin := (h.heads (negCycle q.unpack, d)).mpr ⟨q, hq, rfl⟩
  have hsorted := h.sorted
  rw [hheads] at hin hsorted
  have hp' := toInt_negCycle p.unpack (hcycle next.2 p hp)
  have hq' := toInt_negCycle q.unpack (hcycle d q hq)
  rw [← hnext] at hp'
  rcases List.mem_cons.mp hin with heq | hin
  · rw [← heq, hq'] at hp'
    exact (Int.ofNat_inj.mp (neg_inj.mp hp')).ge
  · have hle := Head.le_iff.mp ((List.pairwise_cons.mp hsorted).1 _ hin)
    rw [hq', hp'] at hle
    change p.reqCycle.toNat ≤ q.reqCycle.toNat
    change -(q.reqCycle.toNat : ℤ) < -(p.reqCycle.toNat : ℤ) ∨ -(q.reqCycle.toNat : ℤ) = -(p.reqCycle.toNat : ℤ) ∧ _ at hle
    omega

/-- The heads below the top are those of the other children. -/
theorem Rel.mem_tail (h : Rel trace s m) {next : Head} {heads : List Head} (hheads : s.heads = next :: heads)
    (a : Head) : a ∈ heads ↔ a.2 ≠ next.2 ∧ ∃ p, (m.queue a.2).head? = some p ∧ a.1 = negCycle p.unpack := by
  have hnodup := h.nodup
  rw [hheads, List.map_cons, List.nodup_cons] at hnodup
  rw [← h.heads a, hheads, List.mem_cons]
  constructor
  · exact fun ha => ⟨fun heq => hnodup.1 (heq ▸ List.mem_map_of_mem ha), .inr ha⟩
  · rintro ⟨hne, rfl | ha⟩
    · exact absurd rfl hne
    · exact ha

/-- A record of the earliest head is written, and its child gets its next head. -/
theorem Rel.writeOne (h : Rel trace s m) (htrace : Sortable trace) (hne : trace.accs ≠ [])
    (hwrites : s.writes = true) :
    ∃ s' m', s.writeOne = .ok s' ∧ Rel trace s' m' ∧ m'.out.length = m.out.length + 1 ∧ m'.unread = m.unread := by
  obtain ⟨next, heads, hheads⟩ := List.exists_cons_of_ne_nil (h.heads_ne htrace hne hwrites)
  obtain ⟨p, hp, hnext⟩ := (h.heads next).mp (hheads ▸ List.mem_cons_self)
  obtain ⟨ps, hqueue⟩ := List.head?_eq_some_iff.mp hp
  have hmem : p ∈ m.queue next.2 := hqueue ▸ List.mem_cons_self
  have hown : ∀ q ∈ p :: ps, childOf q = next.2 := fun q hq => h.inv.own next.2 q (hqueue ▸ hq)
  have hinput : p ∈ trace.accs := h.waiting (.inl ((hown p List.mem_cons_self).symm ▸ hmem))
  have hinv := h.inv.write htrace.sourceSorted hqueue (h.least htrace hheads hp hnext) (h.ready htrace hwrites)
  obtain ⟨tw, hwrite, hwritten, hfile⟩ := h.writes.write p.unpack
  rw [pack_unpack (htrace.types p hinput)] at hwritten
  have hreport : { s with heads := heads, tw := tw, writtenRecords := s.writtenRecords + 1 }.report
      (s.writtenRecords + 1) = .ok { s with heads := heads, tw := tw, writtenRecords := s.writtenRecords + 1 } :=
    report_ok (h.total_ne hne)
  have haccs : s.accs next.2 = some (p.unpack :: ps.map PackedAccessRecord.unpack) := by
    rw [h.accs, Function.comp_apply, hqueue]
    rfl
  have hsorted := h.sorted
  have hnodup := h.nodup
  rw [hheads] at hsorted hnodup
  have hsorted := (List.pairwise_cons.mp hsorted).2
  have hnodup := (List.nodup_cons.mp hnodup).2
  have hwrittenRecords : s.writtenRecords + 1 = (m.out ++ [p]).length := by
    rw [h.writtenRecords, List.length_append, List.length_singleton]
  simp only [Sorter.writeOne, hheads, haccs, hwrite, hreport]
  refine ⟨_, m.write next.2 p ps, rfl, ?_, List.length_append, rfl⟩
  cases ps with
  | nil =>
    refine ⟨hinv, h.reads, hwritten, hfile.trans h.outChildren, ?_, fun a => ?_, hsorted, hnodup,
      h.numChildren, h.total, h.readRecords, hwrittenRecords⟩
    · simp only [Sorter.dequeue, List.map_nil, State.write]
      rw [Function.comp_update, h.accs]
      rfl
    · simp only [Sorter.dequeue, List.map_nil, State.write]
      rw [h.mem_tail hheads]
      by_cases ha : a.2 = next.2
      · rw [ha, Function.update_self]
        simp
      · rw [Function.update_of_ne ha]
        exact ⟨And.right, fun hq => ⟨ha, hq⟩⟩
  | cons q qs =>
    have hqchild : q.unpack.childId = next.2 := hown q (List.mem_cons_of_mem p List.mem_cons_self)
    refine ⟨hinv, h.reads, hwritten, hfile.trans h.outChildren, ?_, fun a => ?_, push_sorted hsorted, ?_,
      h.numChildren, h.total, h.readRecords, hwrittenRecords⟩
    · simp only [Sorter.dequeue, List.map_cons, State.write]
      rw [Function.comp_update, h.accs]
      rfl
    · simp only [Sorter.dequeue, List.map_cons, State.write]
      rw [(push_perm _ _).mem_iff, List.mem_cons, h.mem_tail hheads, hqchild]
      by_cases ha : a.2 = next.2
      · rw [ha, Function.update_self]
        simp only [ne_eq, not_true_eq_false, false_and, or_false, List.head?_cons, Option.some.injEq, exists_eq_left']
        rw [Prod.ext_iff]
        exact ⟨fun hpair => hpair.1, fun hcycle => ⟨hcycle, ha⟩⟩
      · rw [Function.update_of_ne ha]
        refine ⟨fun hcases => ?_, fun hq => .inr ⟨ha, hq⟩⟩
        rcases hcases with rfl | hq
        · exact absurd rfl ha
        · exact hq.2
    · simp only [Sorter.dequeue, List.map_cons, hqchild]
      rw [((push_perm _ _).map Prod.snd).nodup_iff, List.map_cons, List.nodup_cons]
      refine ⟨fun hin => ?_, hnodup⟩
      obtain ⟨a, ha, hac⟩ := List.mem_map.mp hin
      exact ((h.mem_tail hheads a).mp ha).1 hac

/-- Writing ends, each turn writes a record. -/
theorem Rel.writeSome (h : Rel trace s m) (htrace : Sortable trace) (hne : trace.accs ≠ []) (turns : ℕ)
    (hturns : trace.accs.length ≤ m.out.length + turns) :
    ∃ s' m', s.writeSome turns = .ok s' ∧ Rel trace s' m' ∧ s'.writes = false ∧ m'.unread = m.unread ∧
      m.out.length ≤ m'.out.length ∧ (s.writes = true → m.out.length < m'.out.length) := by
  induction turns generalizing s m with
  | zero =>
    by_cases hwrites : s.writes = true
    · obtain ⟨s', m', -, h', hout, -⟩ := h.writeOne htrace hne hwrites
      have hlength := h'.inv.length_le 0
      omega
    · exact ⟨s, m, by rw [Sorter.writeSome, if_neg hwrites], h, Bool.eq_false_iff.mpr hwrites, rfl, le_rfl,
        fun hyes => absurd hyes hwrites⟩
  | succ turns ih =>
    by_cases hwrites : s.writes = true
    · obtain ⟨s', m', hone, h', hout, hunread⟩ := h.writeOne htrace hne hwrites
      obtain ⟨s'', m'', hmore, h'', hdone, hunread', hle, -⟩ := ih h' (by omega)
      refine ⟨s'', m'', ?_, h'', hdone, hunread'.trans hunread, by omega, fun _ => by omega⟩
      rw [Sorter.writeSome, if_pos hwrites, hone]
      exact hmore
    · exact ⟨s, m, by rw [Sorter.writeSome, if_neg hwrites], h, Bool.eq_false_iff.mpr hwrites, rfl, le_rfl,
        fun hyes => absurd hyes hwrites⟩

/-- What is still to be done: records to be read, and to be written. -/
def remaining (trace : TraceFile) (m : State PackedAccessRecord UInt32) : ℕ :=
  m.unread.length + (trace.accs.length - m.out.length)

/-- A turn of the outer loop reads or writes something. -/
theorem Rel.turn (h : Rel trace s m) (htrace : Sortable trace) (hne : trace.accs ≠ [])
    (hgoing : s.tr.empty = false ∨ 0 < s.heads.length) :
    ∃ s' m', s.turn = .ok s' ∧ Rel trace s' m' ∧ remaining trace m' < remaining trace m := by
  have hlength := h.inv.length_le 0
  by_cases hreading : s.tr.empty = false ∧ s.heads.length < s.numChildren.toNat
  · have hunread : m.unread ≠ [] := fun hnil => by
      rw [h.reads.empty_iff.mpr hnil] at hreading
      exact Bool.noConfusion hreading.1
    obtain ⟨s', m', hread, h', hout, hless⟩ := h.readSome htrace 1023 hunread
    obtain ⟨s'', m'', hwrite, h'', -, hunread', hle, -⟩ :=
      h'.writeSome htrace hne s'.totalRecords (by rw [h'.total]; exact Nat.le_add_left ..)
    refine ⟨s'', m'', ?_, h'', ?_⟩
    · rw [Sorter.turn, if_pos hreading, hread]
      simp only [if_neg (not_not.mpr (h'.heads_le htrace))]
      exact hwrite
    · rw [remaining, remaining, hunread']
      rw [hout] at hle
      omega
  · have hwrites : s.writes = true := by
      have hheads := h.heads_le htrace
      rw [Sorter.writes, Bool.or_eq_true, beq_iff_eq, Bool.and_eq_true, decide_eq_true_iff]
      by_cases hempty : s.tr.empty = true
      · exact .inr ⟨hempty, hgoing.resolve_left (by rw [hempty]; exact Bool.noConfusion)⟩
      · exact .inl (by have := mt (And.intro (Bool.eq_false_iff.mpr hempty)) hreading; omega)
    obtain ⟨s', m', hwrite, h', -, hunread', -, hless⟩ :=
      h.writeSome htrace hne s.totalRecords (by rw [h.total]; exact Nat.le_add_left ..)
    have hlength' := h'.inv.length_le 0
    refine ⟨s', m', ?_, h', ?_⟩
    · rw [Sorter.turn, if_neg hreading]
      simp only [if_neg (not_not.mpr (h.heads_le htrace))]
      exact hwrite
    · have hless := hless hwrites
      rw [remaining, remaining, hunread']
      omega

/-- Where the outer loop stops, nothing is to be read and nothing is queued. -/
theorem Rel.stopped (h : Rel trace s m) (hstop : ¬ (s.tr.empty = false ∨ 0 < s.heads.length)) :
    m.unread = [] ∧ ∀ c, m.queue c = [] := by
  rw [not_or, Bool.not_eq_false, Nat.not_lt, Nat.le_zero, List.length_eq_zero_iff] at hstop
  refine ⟨h.reads.empty_iff.mp hstop.1, fun c => ?_⟩
  cases hqueue : m.queue c with
  | nil => rfl
  | cons p ps =>
    have hhead := (h.heads (negCycle p.unpack, c)).mpr ⟨p, by rw [hqueue]; rfl, rfl⟩
    rw [hstop.2] at hhead
    cases hhead

theorem Sorter.loop_stop {turns : ℕ} (hstop : ¬ (s.tr.empty = false ∨ 0 < s.heads.length)) :
    s.loop turns = .ok s := by
  cases turns with
  | zero => rw [Sorter.loop, if_neg hstop]
  | succ turns => rw [Sorter.loop, if_neg hstop]

/-- The outer loop ends. -/
theorem Rel.loop (h : Rel trace s m) (htrace : Sortable trace) (hne : trace.accs ≠ []) (turns : ℕ)
    (hturns : remaining trace m ≤ turns) :
    ∃ s' m', s.loop turns = .ok s' ∧ Rel trace s' m' ∧ m'.unread = [] ∧ ∀ c, m'.queue c = [] := by
  induction turns generalizing s m with
  | zero =>
    by_cases hgoing : s.tr.empty = false ∨ 0 < s.heads.length
    · obtain ⟨s', m', -, -, hless⟩ := h.turn htrace hne hgoing
      omega
    · exact ⟨s, m, Sorter.loop_stop hgoing, h, h.stopped hgoing⟩
  | succ turns ih =>
    by_cases hgoing : s.tr.empty = false ∨ 0 < s.heads.length
    · obtain ⟨s', m', hturn, h', hless⟩ := h.turn htrace hne hgoing
      obtain ⟨s'', m'', hloop, hdone⟩ := ih h' (by omega)
      refine ⟨s'', m'', ?_, hdone⟩
      rw [Sorter.loop, if_pos hgoing, hturn]
      exact hloop
    · exact ⟨s, m, Sorter.loop_stop hgoing, h, h.stopped hgoing⟩

/-- At the end everything is written. -/
theorem Rel.finish (h : Rel trace s m) (hne : trace.accs ≠ []) (hunread : m.unread = [])
    (hqueue : ∀ c, m.queue c = []) : ∃ out, s.finish = .ok out ∧ SortedTrace trace out := by
  obtain ⟨hperm, hsorted, hstable⟩ := h.inv.done hunread hqueue
  have hread : s.readRecords = trace.accs.length := by
    have hcount := h.readRecords
    rwa [hunread, List.length_nil, Nat.add_zero] at hcount
  have hwritten : s.writtenRecords = trace.accs.length := h.writtenRecords.trans hperm.length_eq
  have hcounted : ¬ (s.readRecords ≠ s.writtenRecords ∨ s.readRecords ≠ s.totalRecords) := by
    rw [hread, hwritten, h.total]
    exact fun hdiffer => hdiffer.elim (absurd rfl) (absurd rfl)
  rw [Sorter.finish, Sorter.printProgress, if_neg (h.total_ne hne)]
  simp only [if_neg hcounted, h.writes.dump]
  exact ⟨_, rfl, rfl, h.outChildren, hperm, hsorted.imp UInt64.le_iff_toNat_le.mpr, hstable⟩

end Merging

/-- The last report of an empty trace fails. -/
theorem sorttrace_empty {trace : TraceFile} (hfinished : trace.finished = true) (hnil : trace.accs = []) :
    sorttrace trace = .error .divisionByZero := by
  obtain ⟨tr, hnew, hreads, hfile, -⟩ := AccessTracing.new_spec hfinished
  have hempty := hreads.empty_iff.mpr hnil
  have hzero : tr.numRecords = 0 := by rw [hreads.count, hfile, hnil, List.length_nil]
  have hstop : ¬ (tr.empty = false ∨ 0 < ([] : List Head).length) := by
    rw [hempty]
    exact fun hgoing => hgoing.elim Bool.noConfusion (Nat.lt_irrefl 0)
  simp only [sorttrace, hnew]
  rw [Sorter.loop_stop hstop]
  simp only [Sorter.finish, Sorter.printProgress, if_pos hzero]

/-- Every other trace is sorted. -/
theorem sorttrace_sorts {trace : TraceFile} (htrace : Sortable trace) (hne : trace.accs ≠ []) :
    ∃ out, sorttrace trace = .ok out ∧ SortedTrace trace out := by
  obtain ⟨tr, hnew, hreads, hfile, hchildren⟩ := AccessTracing.new_spec htrace.finished
  have htotal : tr.numRecords = trace.accs.length := by rw [hreads.count, hfile]
  have hstart : Rel trace ⟨tr, .new tr.numChildren, fun _ => none, [], 0, 0, tr.numChildren, tr.numRecords⟩
      (start UInt32 trace.accs) :=
    ⟨inv_start trace.accs, hreads, writes_new tr.numChildren, hchildren, rfl, fun h => by simp [start],
      List.Pairwise.nil, List.nodup_nil, hchildren, htotal, Nat.zero_add _, rfl⟩
  have hturns : remaining trace (start UInt32 trace.accs) ≤ 2 * tr.numRecords := by
    rw [remaining, htotal]
    simp only [start, List.length_nil]
    omega
  obtain ⟨s, m, hloop, h, hunread, hqueue⟩ := hstart.loop htrace hne (2 * tr.numRecords) hturns
  obtain ⟨out, hfinish, hout⟩ := h.finish hne hunread hqueue
  simp only [sorttrace, hnew, hloop]
  exact ⟨out, hfinish, hout⟩

/-- A trace is sorted exactly if it has a record. -/
theorem sorts_iff {trace : TraceFile} (htrace : Sortable trace) :
    (∃ out, sorttrace trace = .ok out ∧ SortedTrace trace out) ↔ trace.accs ≠ [] := by
  constructor
  · rintro ⟨out, hout, -⟩ hnil
    rw [sorttrace_empty htrace.finished hnil] at hout
    cases hout
  · exact sorttrace_sorts htrace

/-- Two children, whose records are not in order. -/
def twoChildren : TraceFile := ⟨[⟨1, 8, 0, 0, 0⟩, ⟨2, 3, 0, 1, 1⟩, ⟨3, 9, 0, 0, 0⟩], 2, true⟩

theorem sortable_twoChildren : Sortable twoChildren := by
  refine ⟨rfl, by decide, by decide, by decide, fun child => ?_⟩
  by_cases hzero : child = 0
  · subst hzero
    decide
  · by_cases hone : child = 1
    · subst hone
      decide
    · have hnone : ofChild child twoChildren.accs = [] := by
        simp [ofChild, twoChildren, Ne.symm hzero, Ne.symm hone]
      rw [hnone]
      exact List.Pairwise.nil

theorem sorts_iff_twoChildren :
    (∃ out, sorttrace twoChildren = .ok out ∧ SortedTrace twoChildren out) ↔ twoChildren.accs ≠ [] :=
  sorts_iff sortable_twoChildren

/-- A trace without records is in order and is not sorted. -/
theorem empty_unsorted : Sortable ⟨[], 1, true⟩ ∧ ¬ ∃ out, sorttrace ⟨[], 1, true⟩ = .ok out := by
  refine ⟨⟨rfl, nofun, nofun, nofun, fun _ => List.Pairwise.nil⟩, fun ⟨out, hout⟩ => ?_⟩
  rw [sorttrace_empty rfl rfl] at hout
  cases hout

end Zsim.SortTrace
