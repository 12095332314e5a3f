import Mathlib.Order.Bounds.Basic
import CodeGuard.Proofs.Cover

/-!
# CodeGuard.Proofs.Stages

A scan seen from inside: what has been taken when a block is chosen, and which block is chosen then.

* `SizeTable.exactFit?_eq_some_iff`: the first size that ends the image is the smallest one that
  reaches its end, or there is none.
* `SizeTable.bestFitByCases?_eq`: the largest size that fits, found in two ways.
* `Layout.Reached`: the stages of a scan. `Layout.Reached.answer`: the last one holds the answer.
* `Layout.Step.sound`, `Layout.Reached.sound`: what every stage keeps, above all that no size is
  kept away by its alignment.
* `Layout.cover_greedy`: so every choice is the greedy one, whatever the address.
-/

namespace CodeGuard

variable {t : SizeTable} {a r : Nat} {b : Block}

namespace SizeTable

/-! ## The block that ends the image -/

/-- The region of `s` bytes at `a`, with as many sub-blocks as fill `r` bytes. -/
def tail (t : SizeTable) (a r s : Nat) : Block :=
  if s = r then .whole a s else .lowest t a s (r / t.subBlockSize s)

/-- `s` is the smallest size that reaches to the end of the `r` bytes from `a` on. -/
def IsTightest (t : SizeTable) (a r s : Nat) : Prop :=
  IsLeast {s | s ∈ t.sizes ∧ r ≤ s ∧ s ∣ a} s

theorem fitExactly?_eq_some_iff_tail {s : Nat} (hs : s ∈ t.sizes) (hr : 0 < r) :
    t.fitExactly? a r s = some b ↔ r ≤ s ∧ t.subBlockSize s ∣ r ∧ b = t.tail a r s := by
  have hall := subdivisions_mul_subBlockSize hs
  have hpos := subBlockSize_pos hs
  unfold fitExactly? tail
  by_cases hsr : s = r
  · subst hsr
    have hdvd : t.subBlockSize s ∣ s := ⟨t.subdivisions, by rw [Nat.mul_comm, hall]⟩
    simp [hdvd, eq_comm]
  · rw [if_neg hsr, if_neg hsr]
    constructor
    · intro h
      simp only at h
      split at h
      · rename_i hk
        obtain ⟨⟨-, hkd⟩, hmul⟩ := hk
        cases h
        refine ⟨?_, ⟨_, by rw [Nat.mul_comm, hmul]⟩, rfl⟩
        calc
          r = r / t.subBlockSize s * t.subBlockSize s := hmul.symm
          _ ≤ t.subdivisions * t.subBlockSize s := Nat.mul_le_mul_right _ hkd
          _ = s := hall
      · cases h
    · rintro ⟨hle, hdvd, rfl⟩
      have hk : 1 ≤ r / t.subBlockSize s := Nat.div_pos (Nat.le_of_dvd hr hdvd) hpos
      have hkd : r / t.subBlockSize s ≤ t.subdivisions := by
        refine Nat.div_le_of_le_mul ?_
        rwa [Nat.mul_comm, hall]
      rw [if_pos ⟨⟨hk, hkd⟩, Nat.div_mul_cancel hdvd⟩]
      rfl

theorem pairwise_alignedAt (t : SizeTable) (a : Nat) : (t.alignedAt a).Pairwise (· < ·) :=
  t.ascending.filter _

/-- In an ascending list the first entry that will do is the least one. -/
theorem findSome?_eq_some_iff_isLeast {β : Type} {f : Nat → Option β} {y : β} {l : List Nat}
    (hasc : l.Pairwise (· < ·)) :
    l.findSome? f = some y ↔ ∃ s, IsLeast {s | s ∈ l ∧ f s ≠ none} s ∧ f s = some y := by
  rw [List.findSome?_eq_some_iff]
  constructor
  · rintro ⟨before, s, after, rfl, hs, hnone⟩
    rw [List.pairwise_append, List.pairwise_cons] at hasc
    refine ⟨s, ⟨⟨by simp, by simp [hs]⟩, ?_⟩, hs⟩
    rintro s' ⟨hmem, hs'⟩
    rcases List.mem_append.mp hmem with hbefore | hmem
    · exact absurd (hnone s' hbefore) hs'
    · rcases List.mem_cons.mp hmem with rfl | hafter
      · exact Nat.le_refl _
      · exact Nat.le_of_lt (hasc.2.1.1 s' hafter)
  · rintro ⟨s, ⟨⟨hmem, -⟩, hleast⟩, hs⟩
    obtain ⟨before, after, rfl⟩ := List.append_of_mem hmem
    refine ⟨before, s, after, rfl, hs, fun s' hbefore => by_contra fun hs' => ?_⟩
    have hlt := (List.pairwise_append.mp hasc).2.2 s' hbefore s List.mem_cons_self
    have hge := hleast ⟨List.mem_append_left _ hbefore, hs'⟩
    omega

/-- Where the sub-blocks of some size fill the rest, those of a smaller one are smaller and fill it
too. So only the smallest size has to be asked. -/
theorem isTightest_and_dvd_iff {s : Nat} : t.IsTightest a r s ∧ t.subBlockSize s ∣ r ↔
    IsLeast {s | s ∈ t.sizes ∧ r ≤ s ∧ s ∣ a ∧ t.subBlockSize s ∣ r} s := by
  constructor
  · rintro ⟨⟨⟨hs, hle, ha⟩, hleast⟩, hdvd⟩
    exact ⟨⟨hs, hle, ha, hdvd⟩, fun s' ⟨hs', hle', ha', _⟩ => hleast ⟨hs', hle', ha'⟩⟩
  · rintro ⟨⟨hs, hle, ha, hdvd⟩, hleast⟩
    refine ⟨⟨⟨hs, hle, ha⟩, fun s' ⟨hs', hle', ha'⟩ => ?_⟩, hdvd⟩
    rcases Nat.le_total s s' with h | h
    · exact h
    · exact hleast ⟨hs', hle', ha', Nat.dvd_trans (subBlockSize_dvd_subBlockSize hs' hs h) hdvd⟩

theorem exactFit?_eq_some_iff (hr : 0 < r) : t.exactFit? a r = some b ↔
    ∃ s, t.IsTightest a r s ∧ t.subBlockSize s ∣ r ∧ b = t.tail a r s := by
  have hfits : {s | s ∈ t.alignedAt a ∧ t.fitExactly? a r s ≠ none} =
      {s | s ∈ t.sizes ∧ r ≤ s ∧ s ∣ a ∧ t.subBlockSize s ∣ r} := by
    ext s
    simp only [Set.mem_ofPred_eq, mem_alignedAt, ← Nat.dvd_iff_mod_eq_zero, and_assoc]
    refine and_congr_right fun hs => ?_
    simp only [Option.ne_none_iff_exists', fitExactly?_eq_some_iff_tail hs hr, exists_and_left,
      exists_eq, and_true]
    exact and_left_comm
  rw [exactFit?, findSome?_eq_some_iff_isLeast (t.pairwise_alignedAt a), hfits]
  refine exists_congr fun s => ?_
  rw [← isTightest_and_dvd_iff, and_assoc]
  refine and_congr_right fun hs => and_congr_right fun hdvd => ?_
  rw [fitExactly?_eq_some_iff_tail hs.1.1 hr]
  exact ⟨fun h => h.2.2, fun h => ⟨hs.1.2.1, hdvd, h⟩⟩

/-- The block `b` ends the `r` bytes from `a` on. It has the smallest size that reaches their end,
and is used whole if that is where it ends, else with as many sub-blocks as fill the bytes. -/
structure Closes (t : SizeTable) (a r : Nat) (b : Block) : Prop where
  base : b.base = a
  size : t.IsTightest a r b.size
  filled : t.subBlockSize b.size ∣ r
  whole_iff : b.eighths = 0 ↔ b.size = r
  eighths : b.size ≠ r → b.eighths = r / t.subBlockSize b.size * t.eighthsPerSubBlock

theorem closes_tail {s : Nat} (hr : 0 < r) (hs : t.IsTightest a r s) (hdvd : t.subBlockSize s ∣ r) :
    t.Closes a r (t.tail a r s) := by
  unfold tail
  split
  · rename_i hsr
    exact ⟨rfl, hs, hdvd, by simp [Block.whole, hsr], fun hne => absurd hsr hne⟩
  · rename_i hsr
    have hk : 0 < r / t.subBlockSize s :=
      Nat.div_pos (Nat.le_of_dvd hr hdvd) (subBlockSize_pos hs.1.1)
    have he : r / t.subBlockSize s * t.eighthsPerSubBlock ≠ 0 :=
      Nat.ne_of_gt (Nat.mul_pos hk t.eighthsPerSubBlock_pos)
    exact ⟨rfl, hs, hdvd, by simp [Block.lowest, hsr, he], fun _ => rfl⟩

theorem Closes.eq_tail (h : t.Closes a r b) : b = t.tail a r b.size := by
  have hwhole := h.whole_iff
  have heighths := h.eighths
  obtain ⟨base, size, eighths⟩ := b
  obtain rfl : base = a := h.base
  unfold tail
  split
  · rename_i hsr
    simpa [Block.whole] using hwhole.mpr hsr
  · rename_i hsr
    simpa [Block.lowest] using heighths hsr

theorem exactFit?_eq_some_iff_closes (hr : 0 < r) :
    t.exactFit? a r = some b ↔ t.Closes a r b := by
  rw [exactFit?_eq_some_iff hr]
  constructor
  · rintro ⟨s, hs, hdvd, rfl⟩
    exact closes_tail hr hs hdvd
  · intro h
    exact ⟨b.size, h.size, h.filled, h.eq_tail⟩

theorem exists_exactFit?_iff (hr : 0 < r) : (∃ b, t.exactFit? a r = some b) ↔
    ∃ s, t.IsTightest a r s ∧ t.subBlockSize s ∣ r := by
  constructor
  · rintro ⟨b, hb⟩
    obtain ⟨s, hs, hdvd, -⟩ := (exactFit?_eq_some_iff hr).mp hb
    exact ⟨s, hs, hdvd⟩
  · rintro ⟨s, hs, hdvd⟩
    exact ⟨_, (exactFit?_eq_some_iff hr).mpr ⟨s, hs, hdvd, rfl⟩⟩

/-! ## The largest size that fits -/

/-- The size that leaves the least of `r` bytes; the last one of those that leave the same. -/
def closest? (r : Nat) : List Nat → Option Nat
  | [] => none
  | s :: rest =>
    match closest? r rest with
    | none => some s
    | some best => some (if r - s < r - best then s else best)

/-- The largest aligned size; where that one reaches past the image, the aligned size that leaves
the least uncovered. -/
def bestFitByCases? (t : SizeTable) (a r : Nat) : Option Block :=
  match (t.alignedAt a).getLast? with
  | none => none
  | some largest =>
    if largest ≤ r then some (.whole a largest)
    else (closest? r ((t.alignedAt a).filter (· ≤ r))).map (.whole a)

theorem mem_of_closest? {l : List Nat} {s : Nat} (h : closest? r l = some s) : s ∈ l := by
  induction l generalizing s with
  | nil => cases h
  | cons s' rest ih =>
    rw [closest?] at h
    split at h
    · cases h
      exact List.mem_cons_self
    · rename_i best hbest
      cases h
      split
      · exact List.mem_cons_self
      · exact List.mem_cons_of_mem _ (ih hbest)

theorem closest?_eq_getLast? {l : List Nat} (hasc : l.Pairwise (· < ·)) (hle : ∀ s ∈ l, s ≤ r) :
    closest? r l = l.getLast? := by
  induction l with
  | nil => rfl
  | cons s rest ih =>
    obtain ⟨hs, hrest⟩ := List.pairwise_cons.mp hasc
    obtain ⟨-, hle⟩ := List.forall_mem_cons.mp hle
    rw [closest?, ih hrest hle, List.getLast?_cons]
    cases hlast : rest.getLast? with
    | none => rfl
    | some best =>
      have hmem := List.mem_of_getLast? hlast
      have hlt := hs best hmem
      have hbest := hle best hmem
      simp only [Option.getD_some]
      rw [if_neg (by omega)]

/-- Both ways lead to the same size, since the sizes ascend. -/
theorem bestFitByCases?_eq (t : SizeTable) (a r : Nat) : t.bestFitByCases? a r = t.bestFit? a r := by
  have hasc := t.pairwise_alignedAt a
  unfold bestFitByCases? bestFit?
  cases hlast : (t.alignedAt a).getLast? with
  | none =>
    rw [List.getLast?_eq_none_iff.mp hlast]
    rfl
  | some largest =>
    simp only
    split
    · rename_i hfit
      have hall : ∀ s ∈ t.alignedAt a, s ≤ r := by
        intro s hs
        have heq := hlast.symm.trans (List.getLast?_eq_some_getLast (List.ne_nil_of_mem hs))
        have hle := (hasc.imp Nat.le_of_lt).rel_getLast hs
        rw [← Option.some.inj heq] at hle
        omega
      rw [List.filter_eq_self.mpr (by simpa using hall), hlast, Option.map_some]
    · rw [closest?_eq_getLast? (hasc.filter _) (by simp)]

/-- Where the alignment keeps no size away, the best fit is the largest size there is for the rest
of the image. -/
theorem Unhindered.bestFit?_eq_some_iff (h : t.Unhindered a r) : t.bestFit? a r = some b ↔
    ∃ s, IsGreatest {s | s ∈ t.sizes ∧ s ≤ r} s ∧ b = .whole a s := by
  have hgreatest : ∀ s, t.IsLargestFit a r s → IsGreatest {s | s ∈ t.sizes ∧ s ≤ r} s :=
    fun s ⟨hs, _, hle, hmax⟩ =>
      ⟨⟨hs, hle⟩, fun s' ⟨hs', hle'⟩ => hmax s' hs' (h s' hs' hle') hle'⟩
  constructor
  · intro hb
    obtain ⟨s, hs, rfl⟩ := bestFit?_eq_some hb
    exact ⟨s, hgreatest s hs, rfl⟩
  · rintro ⟨s, hs, rfl⟩
    obtain ⟨hmem, hle⟩ := hs.1
    cases hb : t.bestFit? a r with
    | none =>
      have hlt := lt_of_bestFit?_eq_none hb s hmem (h s hmem hle)
      omega
    | some b =>
      obtain ⟨s', hs', rfl⟩ := bestFit?_eq_some hb
      rw [(hgreatest s' hs').unique hs]

/-! ## One choice -/

/-- Every block that is chosen makes headway, and none reaches past the image. -/
theorem consumed_of_nextBlock? (h : t.nextBlock? a r = some b) :
    1 ≤ b.consumed ∧ b.consumed ≤ r ∧ b.eighths ≤ 7 := by
  rcases t.nextBlock?_cases a r with ⟨b', hb', hend⟩ | ⟨-, ⟨s, ⟨hs, -, hle, -⟩, hb'⟩ | ⟨hb', -⟩⟩
  · obtain rfl : b' = b := Option.some.inj (hb'.symm.trans h)
    have hmem : b' ∈ [b'] := List.mem_singleton_self b'
    exact ⟨hend.consumed_pos b' hmem, Nat.le_of_eq hend.consumed_singleton,
      Nat.le_of_lt_succ (hend.eighths_lt b' hmem)⟩
  · obtain rfl : b = .whole a s := Option.some.inj (h.symm.trans hb')
    exact ⟨pos_of_mem hs, hle, Nat.zero_le 7⟩
  · rw [h] at hb'
    cases hb'

/-- How the next block is chosen for the `r` bytes from `a` on. -/
structure Greedy (t : SizeTable) (a r : Nat) : Prop where
  aligned : ∀ s ∈ t.sizes, s ≤ r → s ∣ a
  exactFit_iff : ∀ b, t.exactFit? a r = some b ↔ t.Closes a r b
  exactFit_isSome_iff : (∃ b, t.exactFit? a r = some b) ↔
    ∃ s, t.IsTightest a r s ∧ t.subBlockSize s ∣ r
  bestFit_iff : ∀ b, t.bestFit? a r = some b ↔
    ∃ s, IsGreatest {s | s ∈ t.sizes ∧ s ≤ r} s ∧ b = .whole a s
  bestFit_eq : t.bestFit? a r = t.bestFitByCases? a r

theorem Unhindered.greedy (h : t.Unhindered a r) (hr : 0 < r) : t.Greedy a r where
  aligned s hs hle := Nat.dvd_of_mod_eq_zero (h s hs hle)
  exactFit_iff _ := exactFit?_eq_some_iff_closes hr
  exactFit_isSome_iff := exists_exactFit?_iff hr
  bestFit_iff _ := h.bestFit?_eq_some_iff
  bestFit_eq := (t.bestFitByCases?_eq a r).symm

end SizeTable

/-! ## Stages -/

namespace Layout

/-- What a scan has taken, where it would put the next block, and what is left of the image. -/
structure Stage where
  taken : List Block
  address : Nat
  remaining : Nat

namespace Stage

def initial (total : Nat) : Stage :=
  ⟨[], Limits.codeBase, total⟩

/-- Bytes are left, and the budget is not spent. -/
def Open (limit : Nat) (s : Stage) : Prop :=
  0 < s.remaining ∧ s.taken.length < limit

def take (s : Stage) (b : Block) : Stage :=
  ⟨s.taken ++ [b], s.address + b.consumed, s.remaining - b.consumed⟩

def answer (s : Stage) : Except Shortfall Layout :=
  if s.remaining = 0 then .ok ⟨s.taken⟩ else .error ⟨s.remaining, s.taken.length⟩

end Stage

/-- One more block. -/
inductive Step (t : SizeTable) (limit : Nat) : Stage → Stage → Prop where
  | take {s : Stage} {b : Block} :
      s.Open limit → t.nextBlock? s.address s.remaining = some b → Step t limit s (s.take b)

/-- The stages of a scan of `total` bytes that may take `limit` blocks. -/
inductive Reached (t : SizeTable) (limit total : Nat) : Stage → Prop where
  | initial : Reached t limit total (.initial total)
  | step {s s' : Stage} : Reached t limit total s → Step t limit s s' → Reached t limit total s'

/-- No block can be taken any more. -/
def Ended (t : SizeTable) (limit : Nat) (s : Stage) : Prop :=
  ∀ s', ¬ Step t limit s s'

variable {limit total maxSlots : Nat} {s s' : Stage}

theorem Ended.coverFrom_eq (h : Ended t limit s) :
    coverFrom t (limit - s.taken.length) s.address s.remaining = ([], s.remaining) := by
  rcases Nat.eq_zero_or_pos s.remaining with hr | hr
  · rw [hr, coverFrom_done]
  by_cases hroom : s.taken.length < limit
  · cases hb : t.nextBlock? s.address s.remaining with
    | none => exact coverFrom_none hb
    | some b => exact absurd (.take ⟨hr, hroom⟩ hb) (h (s.take b))
  · rw [Nat.sub_eq_zero_of_le (Nat.not_lt.mp hroom), coverFrom_zero]

/-- From every stage on, the scan goes as one of what is left with what is left of the budget. -/
theorem Reached.coverFrom_eq (h : Reached t limit total s) :
    coverFrom t limit 0 total =
      (s.taken ++ (coverFrom t (limit - s.taken.length) s.address s.remaining).1,
        (coverFrom t (limit - s.taken.length) s.address s.remaining).2) := by
  induction h with
  | initial => rfl
  | @step s s' _ hstep ih =>
    cases hstep with
    | @take b hopen hb =>
      obtain ⟨hr, hroom⟩ := hopen
      obtain ⟨n, hn⟩ := Nat.exists_eq_add_of_lt hroom
      have hbudget : limit - s.taken.length = n + 1 := by omega
      have hbudget' : limit - (s.taken ++ [b]).length = n := by
        rw [List.length_append, List.length_singleton]
        omega
      rw [ih, hbudget, coverFrom_some (Nat.ne_of_gt hr) hb]
      simp only [Stage.take, hbudget', List.append_assoc, List.singleton_append]

theorem Reached.exists_ended (h : Reached t limit total s) :
    ∃ s', Reached t limit total s' ∧ Ended t limit s' := by
  generalize hn : limit - s.taken.length = n
  induction n generalizing s with
  | zero =>
    refine ⟨s, h, fun s' hstep => ?_⟩
    cases hstep with
    | take hopen =>
      have := hopen.2
      omega
  | succ n ih =>
    by_cases hend : Ended t limit s
    · exact ⟨s, h, hend⟩
    · simp only [Ended, not_forall, not_not] at hend
      obtain ⟨s', hstep⟩ := hend
      refine ih (h.step hstep) ?_
      cases hstep with
      | take =>
        rw [Stage.take, List.length_append, List.length_singleton]
        omega

/-- The last stage holds the answer. -/
theorem Reached.answer (h : Reached t (min maxSlots 16) total s)
    (hend : Ended t (min maxSlots 16) s) : cover total maxSlots t = s.answer := by
  have hscan := h.coverFrom_eq
  rw [hend.coverFrom_eq, List.append_nil] at hscan
  simp only [cover, hscan, Stage.answer]

/-! ## What every stage keeps -/

/-- Nothing is lost on the way, no size that fits is kept away by its alignment or larger than a
block before, and so the whole blocks do not grow. -/
structure Stage.Sound (t : SizeTable) (total : Nat) (s : Stage) : Prop where
  sum : s.address + s.remaining = total
  unhindered : t.Unhindered s.address s.remaining
  outgrown : ∀ b ∈ s.taken, ∀ size ∈ t.sizes, size ≤ s.remaining → size ≤ b.size
  descending : s.taken.Pairwise fun b b' => b'.eighths = 0 → b'.size ≤ b.size

theorem Stage.sound_initial (t : SizeTable) (total : Nat) : (Stage.initial total).Sound t total where
  sum := Nat.zero_add total
  unhindered _ _ _ := Nat.zero_mod _
  outgrown _ hb := nomatch hb
  descending := .nil

/-- Every block taken so far is at least as large as a size that still fits. -/
theorem Stage.Sound.descending_take (h : s.Sound t total)
    (hb : b.eighths = 0 → b.size ∈ t.sizes ∧ b.size ≤ s.remaining) :
    (s.take b).taken.Pairwise fun b b' => b'.eighths = 0 → b'.size ≤ b.size := by
  refine List.pairwise_append.mpr ⟨h.descending, List.pairwise_singleton _ _, ?_⟩
  intro c hc b' hb' hwhole
  rcases List.mem_singleton.mp hb' with rfl
  obtain ⟨hmem, hle⟩ := hb hwhole
  exact h.outgrown c hc b'.size hmem hle

/-- Behind a block that ends the image nothing is left, which no size fits. -/
theorem Stage.Sound.take_last (h : s.Sound t total)
    (hb : Tiles t s.address (s.address + s.remaining) [b]) : (s.take b).Sound t total := by
  have hsum := h.sum
  have hc := hb.consumed_singleton
  have hnone : ∀ size ∈ t.sizes, ¬ size ≤ s.remaining - b.consumed := by
    intro size hsize hle
    have := SizeTable.pos_of_mem hsize
    omega
  exact {
    sum := by simp only [Stage.take]; omega
    unhindered := fun size hsize hle => absurd hle (hnone size hsize)
    outgrown := fun _ _ size hsize hle => absurd hle (hnone size hsize)
    descending := by
      refine h.descending_take fun hwhole => ⟨(hb.mem_sizes b (by simp)).1, ?_⟩
      rw [← hc, Block.consumed, if_pos hwhole] }

theorem Stage.Sound.take_whole {size : Nat} (h : s.Sound t total)
    (hsize : t.IsLargestFit s.address s.remaining size) :
    (s.take (.whole s.address size)).Sound t total := by
  have hsum := h.sum
  have hstep := h.unhindered.step hsize
  obtain ⟨hmem, -, hle, hmax⟩ := hsize
  exact {
    sum := by simp only [Stage.take, Block.consumed_whole]; omega
    unhindered := hstep
    outgrown := by
      intro c hc size' hsize' hle'
      simp only [Stage.take, Block.consumed_whole] at hc hle'
      rcases List.mem_append.mp hc with hc | hc
      · exact h.outgrown c hc size' hsize' (by omega)
      · rcases List.mem_singleton.mp hc with rfl
        exact hmax size' hsize' (h.unhindered size' hsize' (by omega)) (by omega)
    descending := h.descending_take fun _ => ⟨hmem, hle⟩ }

theorem Step.sound (h : Step t limit s s') (hs : s.Sound t total) : s'.Sound t total := by
  cases h with
  | @take b _ hb =>
    rcases t.nextBlock?_cases s.address s.remaining with
      ⟨b', hb', hend⟩ | ⟨-, ⟨size, hsize, hb'⟩ | ⟨hb', -⟩⟩
    · obtain rfl : b' = b := Option.some.inj (hb'.symm.trans hb)
      exact hs.take_last hend
    · obtain rfl : b = .whole s.address size := Option.some.inj (hb.symm.trans hb')
      exact hs.take_whole hsize
    · rw [hb] at hb'
      cases hb'

theorem Reached.sound (h : Reached t limit total s) : s.Sound t total := by
  induction h with
  | initial => exact Stage.sound_initial t total
  | step _ hstep ih => exact hstep.sound ih

/-- **Every choice of a scan is the greedy one.** A scan comes from stage to stage until no block
can be taken, and answers what it has then. At each stage with bytes left every size that is not too
large stands at a multiple of itself, so the best fit is the largest such size, in whichever way it
is found; and the image is ended by the smallest size that reaches its end, if its sub-blocks fill
the rest, and by no other. No whole block is larger than one before it. -/
theorem cover_greedy (t : SizeTable) (total maxSlots : Nat) :
    (∃ s, Reached t (min maxSlots 16) total s ∧ Ended t (min maxSlots 16) s ∧
      cover total maxSlots t = s.answer) ∧
    ∀ s, Reached t (min maxSlots 16) total s →
      (0 < s.remaining → t.Greedy s.address s.remaining) ∧
      s.taken.Pairwise fun b b' => b'.eighths = 0 → b'.size ≤ b.size := by
  constructor
  · have hstart : Reached t (min maxSlots 16) total (.initial total) := .initial
    obtain ⟨s, hs, hend⟩ := hstart.exists_ended
    exact ⟨s, hs, hend, hs.answer hend⟩
  · intro s hs
    exact ⟨fun hr => hs.sound.unhindered.greedy hr, hs.sound.descending⟩

/-- Behind 256 KB of 300 KB, 44 KB are left. They are no whole number of eighths of 64 KB, so the
next block has 32 KB. -/
theorem cover_greedy_reference :
    Reached .reference 6 0x4B000 ⟨[.whole 0 0x40000], 0x40000, 0xB000⟩ ∧
      SizeTable.reference.Greedy 0x40000 0xB000 :=
  have h : Reached .reference 6 0x4B000 ⟨[.whole 0 0x40000], 0x40000, 0xB000⟩ :=
    .step .initial (.take (b := .whole 0 0x40000) ⟨by decide, by decide⟩ rfl)
  ⟨h, ((cover_greedy .reference 0x4B000 6).2 _ h).1 (by decide)⟩

end Layout
end CodeGuard
