import Mathlib.Algebra.Order.Ring.Int
import Mathlib.Data.List.Basic
import Mathlib.Data.List.Forall2
import Mathlib.Data.List.Infix
import Mathlib.Data.Nat.Notation
import Mathlib.Logic.Function.Basic
import Mathlib.Order.Basic
import Zsim.CircularBuffers

/-!
# The reorder buffer of the out-of-order core

Entries retire in order, so many of them in a cycle; those that may retire earlier go with
the entries before them. When a cycle is full the next one is started, but its first entry is
not counted: that cycle takes one entry too many if the entries keep coming.
-/

namespace Zsim.RetireWidth

section Model

/-- `ReorderBuffer`. -/
structure ReorderBuffer where
  buf : ℕ → ℕ
  curRetireCycle : ℕ
  curCycleRetires : ℕ
  idx : ℕ

/-- The constructor. -/
def ReorderBuffer.new : ReorderBuffer where
  buf _ := 0
  curRetireCycle := 0
  curCycleRetires := 1
  idx := 0

/-- `minAllocCycle`. -/
def minAllocCycle (rob : ReorderBuffer) : ℕ := rob.buf rob.idx

variable (SZ W : ℕ)

/-- The branches of `markRetire`: retire with the bundle, or advance. -/
def retire (rob : ReorderBuffer) (minRetireCycle : ℕ) : ReorderBuffer :=
  if minRetireCycle ≤ rob.curRetireCycle then
    if rob.curCycleRetires = W then
      { rob with curRetireCycle := (rob.curRetireCycle + 1) % 2 ^ 64, curCycleRetires := 0 }
    else { rob with curCycleRetires := rob.curCycleRetires + 1 }
  else { rob with curRetireCycle := minRetireCycle, curCycleRetires := 1 }

/-- The last lines of `markRetire`. -/
def record (rob : ReorderBuffer) : ReorderBuffer :=
  { rob with
    buf := Function.update rob.buf rob.idx rob.curRetireCycle
    idx := if rob.idx + 1 = SZ then 0 else rob.idx + 1 }

/-- `markRetire`. -/
def markRetire (rob : ReorderBuffer) (minRetireCycle : ℕ) : ReorderBuffer :=
  record SZ (retire W rob minRetireCycle)

/-- Calls of `markRetire`. -/
def calls (rob : ReorderBuffer) (cs : List ℕ) : ReorderBuffer := cs.foldl (markRetire SZ W) rob

/-- The retire cycles that the calls record. -/
def recorded (rob : ReorderBuffer) : List ℕ → List ℕ
  | [] => []
  | c :: cs => (markRetire SZ W rob c).curRetireCycle :: recorded (markRetire SZ W rob c) cs

end Model

/-- The width is respected, and the buffer remembers the entry that many calls earlier. -/
structure Retires (SZ W : ℕ) (cs : List ℕ) : Prop where
  sorted : (recorded SZ W .new cs).Pairwise (· ≤ ·)
  late : List.Forall₂ (· ≤ ·) cs (recorded SZ W .new cs)
  width : ∀ c, (recorded SZ W .new cs).count c ≤ W
  ring : ∀ pre, pre <+: cs →
    (List.replicate SZ 0 ++ recorded SZ W .new pre)[pre.length]? = some (minAllocCycle (calls SZ W .new pre))

/-- An entry is followed by as many entries as fit a cycle that may retire with it, and as many
again that may retire with it or a cycle later. -/
def Crowded (W : ℕ) (cs : List ℕ) : Prop :=
  ∃ m ys zs, m :: (ys ++ zs) <:+: cs ∧ ys.length = W ∧ zs.length = W ∧ (∀ c ∈ ys, c ≤ m) ∧ ∀ c ∈ zs, c ≤ m + 1

/-- The last cycle that 64 bits hold is full. -/
def Topped (W : ℕ) (cs : List ℕ) : Prop := ∃ ys, (2 ^ 64 - 1) :: ys <:+: cs ∧ ys.length = W

section Steps

variable {SZ W : ℕ} {rob : ReorderBuffer} {c : ℕ} {cs xs ys : List ℕ}

theorem markRetire_bundle (hc : c ≤ rob.curRetireCycle) (hroom : rob.curCycleRetires ≠ W) :
    (markRetire SZ W rob c).curRetireCycle = rob.curRetireCycle ∧
      (markRetire SZ W rob c).curCycleRetires = rob.curCycleRetires + 1 := by
  rw [markRetire, retire, if_pos hc, if_neg hroom]
  exact ⟨rfl, rfl⟩

theorem markRetire_spill (hc : c ≤ rob.curRetireCycle) (hfull : rob.curCycleRetires = W) :
    (markRetire SZ W rob c).curRetireCycle = (rob.curRetireCycle + 1) % 2 ^ 64 ∧
      (markRetire SZ W rob c).curCycleRetires = 0 := by
  rw [markRetire, retire, if_pos hc, if_pos hfull]
  exact ⟨rfl, rfl⟩

theorem markRetire_advance (hc : rob.curRetireCycle < c) :
    (markRetire SZ W rob c).curRetireCycle = c ∧ (markRetire SZ W rob c).curCycleRetires = 1 := by
  rw [markRetire, retire, if_neg (Nat.not_le.mpr hc)]
  exact ⟨rfl, rfl⟩

theorem calls_append : calls SZ W rob (xs ++ ys) = calls SZ W (calls SZ W rob xs) ys := List.foldl_append

theorem recorded_append :
    recorded SZ W rob (xs ++ ys) = recorded SZ W rob xs ++ recorded SZ W (calls SZ W rob xs) ys := by
  induction xs generalizing rob with
  | nil => rfl
  | cons c xs ih =>
    change _ :: recorded SZ W (markRetire SZ W rob c) (xs ++ ys) = _
    rw [ih]
    rfl

theorem length_recorded : (recorded SZ W rob cs).length = cs.length := by
  induction cs generalizing rob with
  | nil => rfl
  | cons c cs ih => exact congrArg Nat.succ ih

end Steps

section Ring

variable {SZ W : ℕ} {rob : ReorderBuffer} {rs cs : List ℕ}

/-- What the buffer remembers of the entries so far. -/
structure Ring (SZ : ℕ) (rob : ReorderBuffer) (rs : List ℕ) : Prop where
  idx : rob.idx = rs.length % SZ
  buf : ∀ j < SZ, (List.replicate SZ 0 ++ rs)[rs.length + j]? = some (rob.buf ((rs.length + j) % SZ))

theorem ring_new (hSZ : 0 < SZ) : Ring SZ .new [] where
  idx := (Nat.mod_eq_of_lt hSZ).symm
  buf j hj := by
    rw [List.append_nil, List.getElem?_replicate, List.length_nil, Nat.zero_add, if_pos hj]
    rfl

theorem retire_idx (c : ℕ) : (retire W rob c).idx = rob.idx := by
  unfold retire
  split
  · split
    · rfl
    · rfl
  · rfl

theorem retire_buf (c : ℕ) : (retire W rob c).buf = rob.buf := by
  unfold retire
  split
  · split
    · rfl
    · rfl
  · rfl

/-- A call overwrites the oldest entry. -/
theorem Ring.markRetire (h : Ring SZ rob rs) (hSZ : 0 < SZ) (c : ℕ) :
    Ring SZ (markRetire SZ W rob c) (rs ++ [(markRetire SZ W rob c).curRetireCycle]) := by
  have hlen : (rs ++ [(RetireWidth.markRetire SZ W rob c).curRetireCycle]).length = rs.length + 1 :=
    List.length_append
  constructor
  · change (if (retire W rob c).idx + 1 = SZ then 0 else (retire W rob c).idx + 1) = _
    rw [hlen, retire_idx, h.idx]
    exact CircularBuffers.wrap_eq hSZ rs.length
  · intro j hj
    change _ = some (Function.update (retire W rob c).buf (retire W rob c).idx
      (RetireWidth.markRetire SZ W rob c).curRetireCycle _)
    rw [retire_idx, retire_buf, h.idx, hlen, ← List.append_assoc]
    have hsum : rs.length + 1 + j = rs.length + (j + 1) := by omega
    have htotal : (List.replicate SZ 0 ++ rs).length = SZ + rs.length := by
      rw [List.length_append, List.length_replicate]
    by_cases hlast : j + 1 = SZ
    · have hend : rs.length + (j + 1) = (List.replicate SZ 0 ++ rs).length := by omega
      have hmod : (rs.length + (j + 1)) % SZ = rs.length % SZ := by rw [hlast, Nat.add_mod_right]
      rw [hsum, hmod, Function.update_self, hend, List.getElem?_concat_length]
    · have hmod : (rs.length + (j + 1)) % SZ ≠ rs.length % SZ :=
        CircularBuffers.add_mod_ne (Nat.succ_pos j) (by omega)
      rw [hsum, Function.update_of_ne hmod, List.getElem?_append_left (by omega)]
      exact h.buf (j + 1) (by omega)

theorem Ring.calls (h : Ring SZ rob rs) (hSZ : 0 < SZ) :
    Ring SZ (calls SZ W rob cs) (rs ++ recorded SZ W rob cs) := by
  induction cs generalizing rob rs with
  | nil =>
    rw [recorded, List.append_nil]
    exact h
  | cons c cs ih =>
    have hrest := ih (@Ring.markRetire SZ W rob rs h hSZ c)
    rw [List.append_assoc] at hrest
    exact hrest

/-- The cycle a new entry has to wait for is that of the entry so many calls earlier. -/
theorem minAllocCycle_eq (hSZ : 0 < SZ) (cs : List ℕ) :
    (List.replicate SZ 0 ++ recorded SZ W .new cs)[cs.length]? = some (minAllocCycle (calls SZ W .new cs)) := by
  have hring := @Ring.calls SZ W .new [] cs (ring_new hSZ) hSZ
  have hbuf := hring.buf 0 hSZ
  rw [Nat.add_zero, ← hring.idx, List.nil_append, length_recorded] at hbuf
  exact hbuf

end Ring

section Width

variable {SZ W : ℕ} {rob : ReorderBuffer} {rs cs done : List ℕ} {c cur k n : ℕ}

/-- The entries since the last advance, and a bound on those of the current cycle: within the cycle of
the advance, or beyond it, where one entry is not counted. -/
inductive Stretch (W : ℕ) (done : List ℕ) : ℕ → ℕ → ℕ → Prop where
  | within {m : ℕ} {ys : List ℕ} (suffix : m :: ys <:+ done) (le : ∀ c ∈ ys, c ≤ m) (length : ys.length < W) :
    Stretch W done m (ys.length + 1) (ys.length + 1)
  | beyond {m : ℕ} {ys zs : List ℕ} (suffix : m :: (ys ++ zs) <:+ done) (le : ∀ c ∈ ys, c ≤ m)
    (le_succ : ∀ c ∈ zs, c ≤ m + 1) (length : ys.length = W) (room : zs.length < W) :
    Stretch W done (m + 1) zs.length (zs.length + 1)

theorem Stretch.le_width (h : Stretch W done cur k n) : n ≤ W := by
  cases h with
  | within _ _ length => exact length
  | beyond _ _ _ _ room => exact room

theorem suffix_concat {l l' : List ℕ} (h : l <:+ l') (c : ℕ) : l ++ [c] <:+ l' ++ [c] := by
  obtain ⟨pre, rfl⟩ := h
  exact ⟨pre, (List.append_assoc ..).symm⟩

theorem forall_mem_concat {l : List ℕ} {p : ℕ → Prop} (h : ∀ x ∈ l, p x) (hc : p c) : ∀ x ∈ l ++ [c], p x := by
  intro x hx
  cases List.mem_append.mp hx with
  | inl hx => exact h x hx
  | inr hx =>
    rw [List.mem_singleton.mp hx]
    exact hc

/-- One more entry, which retires in the current cycle or starts another one. -/
theorem Stretch.markRetire (h : Stretch W done rob.curRetireCycle rob.curCycleRetires n) (hW : 0 < W)
    (hdone : ∀ x ∈ done, x < 2 ^ 64) (hcrowded : ¬ Crowded W (done ++ [c])) (htopped : ¬ Topped W (done ++ [c])) :
    c ≤ (markRetire SZ W rob c).curRetireCycle ∧ ∃ n', Stretch W (done ++ [c])
      (markRetire SZ W rob c).curRetireCycle (markRetire SZ W rob c).curCycleRetires n' ∧
        ((markRetire SZ W rob c).curRetireCycle = rob.curRetireCycle ∧ n' = n + 1 ∨
          rob.curRetireCycle < (markRetire SZ W rob c).curRetireCycle ∧ n' = 1) := by
  by_cases hc : c ≤ rob.curRetireCycle
  · generalize hcur : rob.curRetireCycle = cur at h hc
    generalize hk : rob.curCycleRetires = k at h
    cases h with
    | @within m ys suffix le length =>
      have hsuffix := suffix_concat suffix c
      by_cases hfull : ys.length + 1 = W
      · obtain ⟨hcycle, hcount⟩ := @markRetire_spill SZ W rob c (hcur.symm ▸ hc) (hk.trans hfull)
        have hlen : (ys ++ [c]).length = W := by rw [List.length_append, List.length_singleton, hfull]
        have hm : cur < 2 ^ 64 := hdone cur (suffix.subset List.mem_cons_self)
        have hne : cur ≠ 2 ^ 64 - 1 := by
          intro heq
          exact htopped ⟨ys ++ [c], heq ▸ hsuffix.isInfix, hlen⟩
        rw [hcur, Nat.mod_eq_of_lt (by omega)] at hcycle
        rw [hcycle, hcount]
        have hnext : Stretch W (done ++ [c]) (cur + 1) 0 1 := by
          refine @Stretch.beyond W _ cur (ys ++ [c]) [] ?_ (forall_mem_concat le hc)
            (fun x hx => absurd hx List.not_mem_nil) hlen hW
          rw [List.append_nil]
          exact hsuffix
        exact ⟨Nat.le_succ_of_le hc, 1, hnext, Or.inr ⟨Nat.lt_succ_self cur, rfl⟩⟩
      · obtain ⟨hcycle, hcount⟩ := @markRetire_bundle SZ W rob c (hcur.symm ▸ hc) (hk.symm ▸ hfull)
        rw [hcur] at hcycle
        rw [hk] at hcount
        rw [hcycle, hcount]
        have hlen : (ys ++ [c]).length = ys.length + 1 := List.length_append
        have hnext : Stretch W (done ++ [c]) cur (ys.length + 1 + 1) (ys.length + 1 + 1) := by
          rw [← hlen]
          exact .within hsuffix (forall_mem_concat le hc) (by omega)
        exact ⟨hc, _, hnext, Or.inl ⟨rfl, rfl⟩⟩
    | @beyond m ys zs suffix le le_succ length room =>
      have hsuffix := suffix_concat suffix c
      rw [List.cons_append, List.append_assoc] at hsuffix
      have hlen : (zs ++ [c]).length = zs.length + 1 := List.length_append
      have hle := forall_mem_concat le_succ hc
      have hfits : zs.length + 1 ≠ W := by
        intro hfull
        exact hcrowded ⟨m, ys, zs ++ [c], hsuffix.isInfix, length, hlen.trans hfull, le, hle⟩
      obtain ⟨hcycle, hcount⟩ := @markRetire_bundle SZ W rob c (hcur.symm ▸ hc) (hk.symm ▸ Nat.ne_of_lt room)
      rw [hcur] at hcycle
      rw [hk] at hcount
      rw [hcycle, hcount]
      have hnext : Stretch W (done ++ [c]) (m + 1) (zs.length + 1) (zs.length + 1 + 1) := by
        rw [← hlen]
        exact .beyond hsuffix le hle length (by omega)
      exact ⟨hc, _, hnext, Or.inl ⟨rfl, rfl⟩⟩
  · have hlt := Nat.lt_of_not_le hc
    obtain ⟨hcycle, hcount⟩ := @markRetire_advance SZ W rob c hlt
    rw [hcycle, hcount]
    exact ⟨Nat.le_refl c, 1, @Stretch.within W _ c [] ⟨done, rfl⟩ (fun x hx => absurd hx List.not_mem_nil) hW,
      Or.inr ⟨hlt, rfl⟩⟩

/-- What has been recorded so far. -/
structure Ledger (W : ℕ) (rs : List ℕ) (cur n : ℕ) : Prop where
  sorted : rs.Pairwise (· ≤ ·)
  le_cur : ∀ r ∈ rs, r ≤ cur
  count_le : ∀ r, rs.count r ≤ W
  count_cur : rs.count cur ≤ n

theorem pairwise_concat {r : ℕ} (h : rs.Pairwise (· ≤ ·)) (hr : ∀ x ∈ rs, x ≤ r) : (rs ++ [r]).Pairwise (· ≤ ·) := by
  refine List.pairwise_append.mpr ⟨h, List.pairwise_singleton .., fun x hx y hy => ?_⟩
  rw [List.mem_singleton.mp hy]
  exact hr x hx

theorem Ledger.same (h : Ledger W rs cur n) (hn : n + 1 ≤ W) : Ledger W (rs ++ [cur]) cur (n + 1) := by
  have hcount : (rs ++ [cur]).count cur ≤ n + 1 := by
    rw [List.count_append, List.count_singleton_self]
    exact Nat.succ_le_succ h.count_cur
  refine ⟨pairwise_concat h.sorted h.le_cur, forall_mem_concat h.le_cur (Nat.le_refl cur), fun r => ?_, hcount⟩
  by_cases hr : r = cur
  · rw [hr]
    exact Nat.le_trans hcount hn
  · rw [List.count_append, List.count_eq_zero.mpr (fun hmem => hr (List.mem_singleton.mp hmem))]
    exact h.count_le r

theorem Ledger.later {cur' : ℕ} (h : Ledger W rs cur n) (hlt : cur < cur') (hW : 0 < W) :
    Ledger W (rs ++ [cur']) cur' 1 := by
  have hbefore : ∀ r ∈ rs, r ≤ cur' := fun r hr => Nat.le_of_lt (Nat.lt_of_le_of_lt (h.le_cur r hr) hlt)
  have hnone : rs.count cur' = 0 :=
    List.count_eq_zero.mpr fun hmem => Nat.not_lt.mpr (h.le_cur cur' hmem) hlt
  have hcount : (rs ++ [cur']).count cur' ≤ 1 := by
    rw [List.count_append, hnone, List.count_singleton_self]
  refine ⟨pairwise_concat h.sorted hbefore, forall_mem_concat hbefore (Nat.le_refl cur'), fun r => ?_, hcount⟩
  by_cases hr : r = cur'
  · rw [hr]
    exact Nat.le_trans hcount hW
  · rw [List.count_append, List.count_eq_zero.mpr (fun hmem => hr (List.mem_singleton.mp hmem))]
    exact h.count_le r

theorem Crowded.mono {l l' : List ℕ} (h : Crowded W l) (hl : l <:+: l') : Crowded W l' := by
  obtain ⟨m, ys, zs, hinfix, hrest⟩ := h
  exact ⟨m, ys, zs, hinfix.trans hl, hrest⟩

theorem Topped.mono {l l' : List ℕ} (h : Topped W l) (hl : l <:+: l') : Topped W l' := by
  obtain ⟨ys, hinfix, hlen⟩ := h
  exact ⟨ys, hinfix.trans hl, hlen⟩

/-- The entries of a run that is not crowded. -/
theorem Stretch.run (h : Stretch W done rob.curRetireCycle rob.curCycleRetires n)
    (hl : Ledger W rs rob.curRetireCycle n) (hW : 0 < W) (hdone : ∀ x ∈ done, x < 2 ^ 64) (hcs : ∀ c ∈ cs, c < 2 ^ 64)
    (hcrowded : ¬ Crowded W (done ++ cs)) (htopped : ¬ Topped W (done ++ cs)) :
    List.Forall₂ (· ≤ ·) cs (recorded SZ W rob cs) ∧ ∃ cur' n', Ledger W (rs ++ recorded SZ W rob cs) cur' n' := by
  induction cs generalizing rob done rs n with
  | nil =>
    refine ⟨.nil, rob.curRetireCycle, n, ?_⟩
    rw [recorded, List.append_nil]
    exact hl
  | cons c cs ih =>
    obtain ⟨hc, hcs⟩ := List.forall_mem_cons.mp hcs
    have happend : done ++ c :: cs = done ++ [c] ++ cs := by rw [List.append_assoc, List.singleton_append]
    have hinfix : done ++ [c] <:+: done ++ c :: cs := ⟨[], cs, by rw [happend]; rfl⟩
    obtain ⟨hle, n', hnext, hcases⟩ := @Stretch.markRetire SZ W rob done c n h hW hdone
      (fun hcr => hcrowded (hcr.mono hinfix)) (fun htop => htopped (htop.mono hinfix))
    have hl' : Ledger W (rs ++ [(RetireWidth.markRetire SZ W rob c).curRetireCycle])
        (RetireWidth.markRetire SZ W rob c).curRetireCycle n' := by
      have hroom := hnext.le_width
      cases hcases with
      | inl hsame =>
        rw [hsame.1, hsame.2]
        exact hl.same (hsame.2 ▸ hroom)
      | inr hlater =>
        rw [hlater.2]
        exact hl.later hlater.1 hW
    rw [happend] at hcrowded htopped
    obtain ⟨hlate, cur', n'', hledger⟩ := ih hnext hl' (forall_mem_concat hdone hc) hcs hcrowded htopped
    rw [List.append_assoc] at hledger
    exact ⟨.cons hle hlate, cur', n'', hledger⟩

/-- A run that is not crowded respects the width. -/
theorem retires_of_not_crowded (hSZ : 0 < SZ) (hW : 0 < W) (hcs : ∀ c ∈ cs, c < 2 ^ 64) (hcrowded : ¬ Crowded W (0 :: cs))
    (htopped : ¬ Topped W (0 :: cs)) : Retires SZ W cs := by
  have hstart : Stretch W [0] ReorderBuffer.new.curRetireCycle ReorderBuffer.new.curCycleRetires 1 :=
    @Stretch.within W [0] 0 [] (List.suffix_refl [0]) (fun x hx => absurd hx List.not_mem_nil) hW
  have hledger : Ledger W [] ReorderBuffer.new.curRetireCycle 1 :=
    ⟨.nil, fun r hr => absurd hr List.not_mem_nil, fun r => Nat.zero_le W, Nat.zero_le 1⟩
  obtain ⟨hlate, cur', n', hl⟩ := @Stretch.run SZ W .new [] cs [0] 1 hstart hledger hW
    (fun x hx => by rw [List.mem_singleton.mp hx]; decide) hcs hcrowded htopped
  exact ⟨hl.sorted, hlate, hl.count_le, fun pre _ => minAllocCycle_eq hSZ pre⟩

end Width

section Crowds

variable {SZ W : ℕ} {rob : ReorderBuffer} {cs us vs ys zs post : List ℕ} {c m : ℕ}

/-- Entries that retire with the bundle. -/
theorem recorded_bundle (hus : ∀ c ∈ us, c ≤ rob.curRetireCycle) (hroom : rob.curCycleRetires + us.length ≤ W) :
    ∃ rob', recorded SZ W rob (us ++ post) = List.replicate us.length rob.curRetireCycle ++ recorded SZ W rob' post ∧
      rob'.curRetireCycle = rob.curRetireCycle ∧ rob'.curCycleRetires = rob.curCycleRetires + us.length := by
  induction us generalizing rob with
  | nil => exact ⟨rob, rfl, rfl, rfl⟩
  | cons c us ih =>
    obtain ⟨hc, hus⟩ := List.forall_mem_cons.mp hus
    rw [List.length_cons] at hroom
    obtain ⟨hcycle, hcount⟩ := @markRetire_bundle SZ W rob c hc (by omega)
    have hus' : ∀ x ∈ us, x ≤ (markRetire SZ W rob c).curRetireCycle := hcycle.symm ▸ hus
    obtain ⟨rob', hrec, hcycle', hcount'⟩ := ih hus' (by omega)
    refine ⟨rob', ?_, hcycle'.trans hcycle, by rw [hcount', hcount, List.length_cons]; omega⟩
    change (markRetire SZ W rob c).curRetireCycle :: recorded SZ W (markRetire SZ W rob c) (us ++ post) = _
    rw [hrec, hcycle]
    rfl

/-- Entries that fill the current cycle, and one that starts the next. -/
theorem recorded_spill (hus : ∀ x ∈ us, x ≤ rob.curRetireCycle) (hc : c ≤ rob.curRetireCycle)
    (hfull : rob.curCycleRetires + us.length = W) :
    ∃ rob', recorded SZ W rob (us ++ c :: post) = List.replicate us.length rob.curRetireCycle ++
        (rob.curRetireCycle + 1) % 2 ^ 64 :: recorded SZ W rob' post ∧
      rob'.curRetireCycle = (rob.curRetireCycle + 1) % 2 ^ 64 ∧ rob'.curCycleRetires = 0 := by
  obtain ⟨rob₁, hrec, hcycle, hcount⟩ := @recorded_bundle SZ W rob us (c :: post) hus (Nat.le_of_eq hfull)
  obtain ⟨hcycle', hcount'⟩ := @markRetire_spill SZ W rob₁ c (hcycle.symm ▸ hc) (hcount.trans hfull)
  rw [hcycle] at hcycle'
  refine ⟨markRetire SZ W rob₁ c, ?_, hcycle', hcount'⟩
  rw [hrec]
  change _ ++ (markRetire SZ W rob₁ c).curRetireCycle :: _ = _
  rw [hcycle']

/-- Entries for a full cycle, of which one is counted already, are cut where they spill. -/
theorem cut_spill {k : ℕ} (hk : 0 < k) (hkW : k ≤ W) (hys : ys.length = W) :
    ∃ us c vs, ys = us ++ c :: vs ∧ k + us.length = W ∧ us.length + vs.length + 1 = W := by
  have hlen : (ys.drop (W - k)).length = k := by
    rw [List.length_drop]
    omega
  have htake : (ys.take (W - k)).length = W - k := by
    rw [List.length_take]
    omega
  cases hdrop : ys.drop (W - k) with
  | nil =>
    rw [hdrop, List.length_nil] at hlen
    omega
  | cons c vs =>
    rw [hdrop, List.length_cons] at hlen
    refine ⟨ys.take (W - k), c, vs, ?_, by omega, by omega⟩
    rw [← hdrop, List.take_append_drop]

/-- A full cycle of entries that may retire now spills. -/
theorem spill_mem (hk : 0 < rob.curCycleRetires) (hkW : rob.curCycleRetires ≤ W) (hlen : ys.length = W)
    (hys : ∀ c ∈ ys, c ≤ rob.curRetireCycle) : (rob.curRetireCycle + 1) % 2 ^ 64 ∈ recorded SZ W rob (ys ++ post) := by
  obtain ⟨us, c, vs, rfl, hfull, -⟩ := cut_spill hk hkW hlen
  obtain ⟨rob', hrec, -⟩ := @recorded_spill SZ W rob us (vs ++ post) c
    (fun x hx => hys x (List.mem_append_left _ hx)) (hys c (List.mem_append_right _ List.mem_cons_self)) hfull
  rw [List.append_assoc, List.cons_append, hrec]
  exact List.mem_append_right _ List.mem_cons_self

/-- After a spill comes a full cycle of entries that are counted. -/
theorem crowds (hk : 0 < rob.curCycleRetires) (hkW : rob.curCycleRetires ≤ W) (hm : m ≤ rob.curRetireCycle)
    (hroom : rob.curRetireCycle + 1 < 2 ^ 64) (hys : ys.length = W) (hzs : zs.length = W) (hle : ∀ c ∈ ys, c ≤ m)
    (hle' : ∀ c ∈ zs, c ≤ m + 1) :
    W < (recorded SZ W rob (ys ++ zs ++ post)).count (rob.curRetireCycle + 1) := by
  obtain ⟨us, c, vs, rfl, hfull, hlen⟩ := cut_spill hk hkW hys
  have hbefore : ∀ x ∈ us ++ c :: vs, x ≤ rob.curRetireCycle := fun x hx => Nat.le_trans (hle x hx) hm
  obtain ⟨rob₁, hrec, hcycle, hcount⟩ := @recorded_spill SZ W rob us (vs ++ zs ++ post) c
    (fun x hx => hbefore x (List.mem_append_left _ hx))
    (hbefore c (List.mem_append_right _ List.mem_cons_self)) hfull
  rw [Nat.mod_eq_of_lt hroom] at hrec hcycle
  have hlater : ∀ x ∈ vs ++ zs.take (us.length + 1), x ≤ rob₁.curRetireCycle := by
    intro x hx
    rw [hcycle]
    cases List.mem_append.mp hx with
    | inl hx =>
      exact Nat.le_succ_of_le (hbefore x (List.mem_append_right _ (List.mem_cons_of_mem _ hx)))
    | inr hx => exact Nat.le_trans (hle' x (List.mem_of_mem_take hx)) (Nat.succ_le_succ hm)
  have hmany : (vs ++ zs.take (us.length + 1)).length = W := by
    rw [List.length_append, List.length_take]
    omega
  obtain ⟨rob₂, hrec', -, -⟩ := @recorded_bundle SZ W rob₁ (vs ++ zs.take (us.length + 1))
    (zs.drop (us.length + 1) ++ post) hlater (by rw [hcount, hmany, Nat.zero_add])
  have hjoin : us ++ c :: vs ++ zs ++ post = us ++ c :: (vs ++ zs ++ post) := by simp
  have hsplit : vs ++ zs ++ post = vs ++ zs.take (us.length + 1) ++ (zs.drop (us.length + 1) ++ post) := by
    rw [List.append_assoc, List.append_assoc, ← List.append_assoc (zs.take _), List.take_append_drop]
  rw [hjoin, hrec, hsplit, hrec', hmany, hcycle]
  simp only [List.count_append, List.count_cons_self, List.count_replicate_self]
  omega

/-- The counter and the cycle stay in their bounds. -/
theorem calls_bounded (hW : 0 < W) (hcs : ∀ c ∈ cs, c < 2 ^ 64) :
    (calls SZ W .new cs).curCycleRetires ≤ W ∧ (calls SZ W .new cs).curRetireCycle < 2 ^ 64 := by
  have hrun : ∀ rob : ReorderBuffer, rob.curCycleRetires ≤ W ∧ rob.curRetireCycle < 2 ^ 64 →
      (calls SZ W rob cs).curCycleRetires ≤ W ∧ (calls SZ W rob cs).curRetireCycle < 2 ^ 64 := by
    induction cs with
    | nil => exact fun rob h => h
    | cons c cs ih =>
      intro rob h
      obtain ⟨hc, hcs⟩ := List.forall_mem_cons.mp hcs
      refine ih hcs (markRetire SZ W rob c) ?_
      by_cases hle : c ≤ rob.curRetireCycle
      · by_cases hfull : rob.curCycleRetires = W
        · obtain ⟨hcycle, hcount⟩ := @markRetire_spill SZ W rob c hle hfull
          rw [hcycle, hcount]
          exact ⟨Nat.zero_le W, Nat.mod_lt _ (by decide)⟩
        · obtain ⟨hcycle, hcount⟩ := @markRetire_bundle SZ W rob c hle hfull
          rw [hcycle, hcount]
          exact ⟨by omega, h.2⟩
      · obtain ⟨hcycle, hcount⟩ := @markRetire_advance SZ W rob c (Nat.lt_of_not_le hle)
        rw [hcycle, hcount]
        exact ⟨hW, hc⟩
  exact hrun .new ⟨hW, by decide⟩

/-- An entry that is not counted has started its cycle. -/
theorem markRetire_uncounted (h : (markRetire SZ W rob c).curCycleRetires = 0) :
    c ≤ rob.curRetireCycle ∧ (markRetire SZ W rob c).curRetireCycle = (rob.curRetireCycle + 1) % 2 ^ 64 := by
  by_cases hle : c ≤ rob.curRetireCycle
  · by_cases hfull : rob.curCycleRetires = W
    · exact ⟨hle, (markRetire_spill hle hfull).1⟩
    · rw [(markRetire_bundle hle hfull).2] at h
      cases h
  · rw [(markRetire_advance (Nat.lt_of_not_le hle)).2] at h
    cases h

/-- What a run that respects the width tells about one of its entries. -/
theorem Retires.entry {pre rest : List ℕ} (h : Retires SZ W (pre ++ m :: rest)) (hW : 0 < W)
    (hcs : ∀ c ∈ pre ++ m :: rest, c < 2 ^ 64) (rob : ReorderBuffer) (hrob : markRetire SZ W (calls SZ W .new pre) m = rob) :
    m ≤ rob.curRetireCycle ∧ rob.curRetireCycle < 2 ^ 64 ∧ rob.curCycleRetires ≤ W ∧
      (∀ r ∈ recorded SZ W rob rest, rob.curRetireCycle ≤ r) ∧
      ∀ r, (rob.curRetireCycle :: recorded SZ W rob rest).count r ≤ W := by
  have hrec : recorded SZ W .new (pre ++ m :: rest) =
      recorded SZ W .new pre ++ rob.curRetireCycle :: recorded SZ W rob rest := by
    rw [recorded_append, ← hrob]
    rfl
  have hcalls : calls SZ W .new (pre ++ [m]) = rob := by
    rw [calls_append, ← hrob]
    rfl
  have hpre : ∀ c ∈ pre ++ [m], c < 2 ^ 64 := by
    intro c hc
    refine hcs c ?_
    cases List.mem_append.mp hc with
    | inl hc => exact List.mem_append_left _ hc
    | inr hc =>
      rw [List.mem_singleton.mp hc]
      exact List.mem_append_right _ List.mem_cons_self
  have hbounded := @calls_bounded SZ W (pre ++ [m]) hW hpre
  rw [hcalls] at hbounded
  have hlate := h.late
  have hsorted := h.sorted
  rw [hrec] at hlate hsorted
  have hmem : (m, rob.curRetireCycle) ∈
      (pre ++ m :: rest).zip (recorded SZ W .new pre ++ rob.curRetireCycle :: recorded SZ W rob rest) := by
    rw [List.zip_append length_recorded.symm]
    exact List.mem_append_right _ List.mem_cons_self
  refine ⟨(List.forall₂_iff_zip.mp hlate).2 hmem, hbounded.2, hbounded.1,
    (List.pairwise_cons.mp (List.pairwise_append.mp hsorted).2.1).1, fun r => ?_⟩
  have hwidth := h.width r
  rw [hrec, List.count_append] at hwidth
  omega

/-- A crowded run gives some cycle to too many entries, or wraps around. -/
theorem not_crowded_of_retires (h : Retires SZ W cs) (hW : 0 < W) (hcs : ∀ c ∈ cs, c < 2 ^ 64) :
    ¬ Crowded W (0 :: cs) := by
  intro hcrowded
  obtain ⟨m, ys, zs, ⟨pre, post, hjoin⟩, hys, hzs, hle, hle'⟩ := hcrowded
  cases pre with
  | nil =>
    rw [List.nil_append, List.cons_append] at hjoin
    obtain ⟨rfl, rfl⟩ := List.cons.inj hjoin
    have hmany := @crowds SZ W .new ys zs post 0 Nat.zero_lt_one hW (Nat.le_refl 0) (by decide) hys hzs hle hle'
    exact Nat.not_lt.mpr (h.width _) hmany
  | cons x pre =>
    rw [List.cons_append, List.cons_append, List.append_assoc, List.cons_append] at hjoin
    obtain ⟨rfl, rfl⟩ := List.cons.inj hjoin
    obtain ⟨hm, hbound, hkW, hsorted, hwidth⟩ := h.entry hW hcs _ rfl
    generalize hrob : markRetire SZ W (calls SZ W .new pre) m = rob at *
    have hbefore : ∀ c ∈ ys, c ≤ rob.curRetireCycle := fun c hc => Nat.le_trans (hle c hc) hm
    by_cases hk : rob.curCycleRetires = 0
    · obtain ⟨rob', hrec, -⟩ := @recorded_bundle SZ W rob ys (zs ++ post) hbefore (by omega)
      have hcount := hwidth rob.curRetireCycle
      rw [List.append_assoc, hrec, List.count_cons_self, List.count_append, List.count_replicate_self] at hcount
      omega
    · have hspill := @spill_mem SZ W rob ys (zs ++ post) (Nat.pos_of_ne_zero hk) hkW hys hbefore
      rw [← List.append_assoc] at hspill
      have hnext := hsorted _ hspill
      have hroom : rob.curRetireCycle + 1 < 2 ^ 64 := by omega
      have hmany := @crowds SZ W rob ys zs post m (Nat.pos_of_ne_zero hk) hkW hm hroom hys hzs hle hle'
      have hcount := hwidth (rob.curRetireCycle + 1)
      rw [List.count_cons] at hcount
      omega

/-- No entry comes after the last cycle. -/
theorem not_topped_of_retires (h : Retires SZ W cs) (hW : 0 < W) (hcs : ∀ c ∈ cs, c < 2 ^ 64) :
    ¬ Topped W (0 :: cs) := by
  intro htopped
  obtain ⟨ys, ⟨pre, post, hjoin⟩, hys⟩ := htopped
  cases pre with
  | nil => cases hjoin
  | cons x pre =>
    rw [List.cons_append, List.cons_append, List.append_assoc, List.cons_append] at hjoin
    obtain ⟨-, rfl⟩ := List.cons.inj hjoin
    obtain ⟨hm, hbound, hkW, hsorted, -⟩ := h.entry hW hcs _ rfl
    have hbefore : ∀ c ∈ ys, c ≤ 2 ^ 64 - 1 := by
      intro c hc
      exact Nat.le_sub_one_of_lt (hcs c (List.mem_append_right _ (List.mem_cons_of_mem _ (List.mem_append_left _ hc))))
    by_cases hk : (markRetire SZ W (calls SZ W .new pre) (2 ^ 64 - 1)).curCycleRetires = 0
    · obtain ⟨hle, hcycle⟩ := markRetire_uncounted hk
      have hpre := (@calls_bounded SZ W pre hW fun c hc => hcs c (List.mem_append_left _ hc)).2
      omega
    · have hspill := @spill_mem SZ W _ ys post (Nat.pos_of_ne_zero hk) hkW hys fun c hc =>
        Nat.le_trans (hbefore c hc) hm
      have hnext := hsorted _ hspill
      omega

/-- The width is respected by exactly the runs in which nothing is crowded. -/
theorem retires_iff (hSZ : 0 < SZ) (hW : 0 < W) (hcs : ∀ c ∈ cs, c < 2 ^ 64) :
    Retires SZ W cs ↔ ¬ Crowded W (0 :: cs) ∧ ¬ Topped W (0 :: cs) :=
  ⟨fun h => ⟨not_crowded_of_retires h hW hcs, not_topped_of_retires h hW hcs⟩,
    fun h => retires_of_not_crowded hSZ hW hcs h.1 h.2⟩

/-- Three entries in a buffer of two, two in a cycle. -/
theorem retires_iff_three : Retires 2 2 [5, 5, 0] ↔ ¬ Crowded 2 [0, 5, 5, 0] ∧ ¬ Topped 2 [0, 5, 5, 0] :=
  retires_iff (by decide) (by decide) (by decide)

/-- The second cycle of eight entries takes five of them. -/
theorem eight_entries : ¬ ∀ SZ W : ℕ, 0 < SZ → 0 < W → ∀ cs : List ℕ, (∀ c ∈ cs, c < 2 ^ 64) → Retires SZ W cs := by
  intro hall
  have hwidth := (hall 128 4 (by decide) (by decide) [0, 0, 0, 0, 0, 0, 0, 0] (by decide)).width 1
  exact absurd hwidth (by decide)

end Crowds
end Zsim.RetireWidth
