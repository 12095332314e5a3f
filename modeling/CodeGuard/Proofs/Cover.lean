import Mathlib.Data.List.Pairwise
import CodeGuard.Proofs.Tiling

/-!
# CodeGuard.Proofs.Cover

The greedy cut of an image against all cuts that there are.

* `nextBlock?_cases`: a block that ends the image, if there is one; else the largest aligned size
  that fits.
* `Layout.Scans`: how a scan goes, block by block. `Layout.coverFrom_eq_iff`: the scan has that
  result and no other.
* `Layout.Scans.tiles`: what a scan took tiles what it took off the image.
* `Layout.cover_eq_ok_iff`, `Layout.cover_eq_error_iff`: the answer, read off the scan.
* `Tiles.exchange`: a tiling of a stretch that no single block ends can be made to start with the
  largest aligned size, at no cost.
* `Layout.Scans.of_tiles`: so a scan needs no more blocks than any tiling.
-/

namespace CodeGuard

variable {t : SizeTable} {n a r left : Nat} {bs : List Block}

/-! ## One step -/

namespace SizeTable

@[simp] theorem fitExactly?_self {s : Nat} : t.fitExactly? a s s = some (.whole a s) := by
  simp [fitExactly?]

theorem fitExactly?_lowest {s k : Nat} (hs : s ∈ t.sizes) (hk : 1 ≤ k) (hkd : k < t.subdivisions) :
    t.fitExactly? a (k * t.subBlockSize s) s = some (.lowest t a s k) := by
  have hpos := subBlockSize_pos hs
  have hlt := mul_subBlockSize_lt hs hkd
  simp [fitExactly?, Nat.ne_of_gt hlt, Nat.mul_div_cancel k hpos, hk, Nat.le_of_lt hkd,
    Block.lowest]

/-- A size fits exactly if a block of that size ends the image by itself. -/
theorem fitExactly?_eq_some_iff {s : Nat} {b : Block} (hs : s ∈ t.sizes) (ha : a % s = 0) :
    t.fitExactly? a r s = some b ↔ b.size = s ∧ Tiles t a (a + r) [b] := by
  rw [Tiles.singleton_iff]
  constructor
  · intro h
    simp only [fitExactly?] at h
    split at h
    · rename_i hr
      cases h
      exact ⟨rfl, hs, ha, .inl ⟨hr.symm, rfl⟩⟩
    · rename_i hr
      split at h
      · rename_i hk
        cases h
        obtain ⟨⟨hk, hkd⟩, hmul⟩ := hk
        -- all sub-blocks together are the whole region, which is not the rest of the image
        have hlt : r / t.subBlockSize s < t.subdivisions := by
          refine Nat.lt_of_le_of_ne hkd fun he => hr ?_
          rw [← hmul, he, subdivisions_mul_subBlockSize hs]
        exact ⟨rfl, hs, ha, .inr ⟨_, hk, hlt, hmul.symm, rfl⟩⟩
      · cases h
  · rintro ⟨rfl, _, _, ⟨hr, hb⟩ | ⟨k, hk, hkd, hr, hb⟩⟩
    · rw [hr, fitExactly?_self, ← hb]
    · rw [hr, fitExactly?_lowest hs hk hkd, ← hb]

theorem exactFit?_tiles {b : Block} (h : t.exactFit? a r = some b) : Tiles t a (a + r) [b] := by
  obtain ⟨s, hs, hf⟩ := List.exists_of_findSome?_eq_some h
  obtain ⟨hs, ha⟩ := mem_alignedAt.mp hs
  exact ((fitExactly?_eq_some_iff hs ha).mp hf).2

theorem not_tiles_of_exactFit?_eq_none (h : t.exactFit? a r = none) (b : Block) :
    ¬ Tiles t a (a + r) [b] := by
  intro hb
  obtain ⟨hs, ha, _⟩ := Tiles.singleton_iff.mp hb
  have hnone := List.findSome?_eq_none_iff.mp h b.size (mem_alignedAt.mpr ⟨hs, ha⟩)
  rw [(fitExactly?_eq_some_iff hs ha).mpr ⟨rfl, hb⟩] at hnone
  cases hnone

def IsLargestFit (t : SizeTable) (a r s : Nat) : Prop :=
  s ∈ t.sizes ∧ a % s = 0 ∧ s ≤ r ∧ ∀ s' ∈ t.sizes, a % s' = 0 → s' ≤ r → s' ≤ s

/-- The alignment keeps none of the sizes away that are small enough for the `r` bytes from `a`
on. -/
def Unhindered (t : SizeTable) (a r : Nat) : Prop :=
  ∀ s ∈ t.sizes, s ≤ r → a % s = 0

/-- The sizes that fit behind the largest that fitted are no larger, so they divide it. -/
theorem Unhindered.step {s : Nat} (h : t.Unhindered a r) (hs : t.IsLargestFit a r s) :
    t.Unhindered (a + s) (r - s) := by
  obtain ⟨hmem, -, -, hmax⟩ := hs
  intro s' hs' hle
  have halign := h s' hs' (by omega)
  have hdvd := dvd_of_mem_of_le hs' hmem (hmax s' hs' halign (by omega))
  exact Nat.mod_eq_zero_of_dvd (Nat.dvd_add (Nat.dvd_of_mod_eq_zero halign) hdvd)

theorem bestFit?_eq_some {b : Block} (h : t.bestFit? a r = some b) :
    ∃ s, t.IsLargestFit a r s ∧ b = .whole a s := by
  simp only [bestFit?, Option.map_eq_some_iff] at h
  obtain ⟨s, hs, rfl⟩ := h
  have hmem := List.mem_of_getLast? hs
  simp only [List.mem_filter, decide_eq_true_eq] at hmem
  obtain ⟨halign, hle⟩ := hmem
  obtain ⟨hs', ha⟩ := mem_alignedAt.mp halign
  refine ⟨s, ⟨hs', ha, hle, fun s' hs'' ha' hle' => ?_⟩, rfl⟩
  have hasc : ((t.alignedAt a).filter (· ≤ r)).Pairwise (· < ·) :=
    (t.ascending.filter _).filter _
  have hm : s' ∈ (t.alignedAt a).filter (· ≤ r) := by
    simp [mem_alignedAt, hs'', ha', hle']
  -- the list ascends, so its last element is its greatest
  have hlast := hs.symm.trans (List.getLast?_eq_some_getLast (List.ne_nil_of_mem hm))
  rw [Option.some.inj hlast]
  exact (hasc.imp Nat.le_of_lt).rel_getLast hm

theorem lt_of_bestFit?_eq_none (h : t.bestFit? a r = none) :
    ∀ s ∈ t.sizes, a % s = 0 → r < s := by
  intro s hs ha
  simp only [bestFit?, Option.map_eq_none_iff, List.getLast?_eq_none_iff, List.filter_eq_nil_iff,
    decide_eq_true_eq] at h
  exact Nat.not_le.mp (h s (mem_alignedAt.mpr ⟨hs, ha⟩))

/-- A block that ends the image; else the largest whole one; else none fits. -/
theorem nextBlock?_cases (t : SizeTable) (a r : Nat) :
    (∃ b, t.nextBlock? a r = some b ∧ Tiles t a (a + r) [b]) ∨
    (∀ b, ¬ Tiles t a (a + r) [b]) ∧
      ((∃ s, t.IsLargestFit a r s ∧ t.nextBlock? a r = some (.whole a s)) ∨
        t.nextBlock? a r = none ∧ ∀ s ∈ t.sizes, a % s = 0 → r < s) := by
  unfold nextBlock?
  cases hex : t.exactFit? a r with
  | some b => exact .inl ⟨b, rfl, exactFit?_tiles hex⟩
  | none =>
    refine .inr ⟨not_tiles_of_exactFit?_eq_none hex, ?_⟩
    cases hbest : t.bestFit? a r with
    | some b =>
      obtain ⟨s, hs, rfl⟩ := bestFit?_eq_some hbest
      exact .inl ⟨s, hs, rfl⟩
    | none => exact .inr ⟨rfl, lt_of_bestFit?_eq_none hbest⟩

end SizeTable

/-! ## The scan -/

namespace Layout

@[simp] theorem coverFrom_zero : coverFrom t 0 a r = ([], r) := rfl

@[simp] theorem coverFrom_done : coverFrom t n a 0 = ([], 0) := by
  cases n <;> simp [coverFrom]

theorem coverFrom_none (h : t.nextBlock? a r = none) : coverFrom t n a r = ([], r) := by
  cases n with
  | zero => rfl
  | succ n =>
    simp only [coverFrom, h]
    split
    · rename_i hr
      rw [hr]
    · rfl

theorem coverFrom_some {b : Block} (hr : r ≠ 0) (h : t.nextBlock? a r = some b) :
    coverFrom t (n + 1) a r =
      (b :: (coverFrom t n (a + b.consumed) (r - b.consumed)).1,
        (coverFrom t n (a + b.consumed) (r - b.consumed)).2) := by
  simp only [coverFrom, h, if_neg hr]

theorem coverFrom_last {b : Block} (h : t.nextBlock? a r = some b)
    (hb : Tiles t a (a + r) [b]) : coverFrom t (n + 1) a r = ([b], 0) := by
  have hc := hb.consumed_singleton
  have hpos := hb.consumed_pos b (by simp)
  rw [coverFrom_some (by omega) h, hc, Nat.sub_self, coverFrom_done]

/-- How a scan goes that may take `n` blocks for the `r` bytes from `a` on: the blocks that it
takes, and how many bytes are left then. -/
inductive Scans (t : SizeTable) : (n a r : Nat) → List Block → Nat → Prop where
  | ended {n a : Nat} : Scans t n a 0 [] 0
  | spent {a r : Nat} : 0 < r → Scans t 0 a r [] r
  | stuck {n a r : Nat} :
      0 < r → t.nextBlock? a r = none → (∀ b, ¬ Tiles t a (a + r) [b]) →
      (∀ s ∈ t.sizes, a % s = 0 → r < s) → Scans t (n + 1) a r [] r
  | last {n a r : Nat} {b : Block} :
      0 < r → t.nextBlock? a r = some b → Tiles t a (a + r) [b] → Scans t (n + 1) a r [b] 0
  | step {n a r s left : Nat} {rest : List Block} :
      0 < r → t.nextBlock? a r = some (.whole a s) → (∀ b, ¬ Tiles t a (a + r) [b]) →
      t.IsLargestFit a r s → Scans t n (a + s) (r - s) rest left →
      Scans t (n + 1) a r (.whole a s :: rest) left

theorem scans_coverFrom (t : SizeTable) : ∀ n a r,
    Scans t n a r (coverFrom t n a r).1 (coverFrom t n a r).2 := by
  intro n
  induction n with
  | zero =>
    intro a r
    rcases Nat.eq_zero_or_pos r with rfl | hr
    · exact .ended
    · exact .spent hr
  | succ n ih =>
    intro a r
    rcases Nat.eq_zero_or_pos r with rfl | hr
    · rw [coverFrom_done]
      exact .ended
    rcases t.nextBlock?_cases a r with ⟨b, hb, hend⟩ | ⟨hno, ⟨s, hs, hb⟩ | ⟨hb, hlt⟩⟩
    · rw [coverFrom_last hb hend]
      exact .last hr hb hend
    · rw [coverFrom_some (Nat.ne_of_gt hr) hb, Block.consumed_whole]
      exact .step hr hb hno hs (ih (a + s) (r - s))
    · rw [coverFrom_none hb]
      exact .stuck hr hb hno hlt

theorem Scans.coverFrom_eq (h : Scans t n a r bs left) : coverFrom t n a r = (bs, left) := by
  induction h with
  | ended => exact coverFrom_done
  | spent => rfl
  | stuck _ hb => exact coverFrom_none hb
  | last _ hb hend => exact coverFrom_last hb hend
  | step hr hb _ _ _ ih => rw [coverFrom_some (Nat.ne_of_gt hr) hb, Block.consumed_whole, ih]

theorem coverFrom_eq_iff : coverFrom t n a r = (bs, left) ↔ Scans t n a r bs left := by
  refine ⟨fun h => ?_, Scans.coverFrom_eq⟩
  have hscan := scans_coverFrom t n a r
  rwa [h] at hscan

namespace Scans

theorem length_le (h : Scans t n a r bs left) : bs.length ≤ n := by
  induction h with
  | ended => exact Nat.zero_le _
  | spent => exact Nat.le_refl 0
  | stuck => exact Nat.zero_le _
  | last => exact Nat.le_add_left 1 _
  | step _ _ _ _ _ ih => exact Nat.succ_le_succ ih

theorem left_le (h : Scans t n a r bs left) : left ≤ r := by
  induction h with
  | ended => exact Nat.le_refl 0
  | spent => exact Nat.le_refl _
  | stuck => exact Nat.le_refl _
  | last => exact Nat.zero_le _
  | step _ _ _ _ _ ih => exact Nat.le_trans ih (Nat.sub_le _ _)

/-- The blocks taken tile what was taken off the image. -/
theorem tiles (h : Scans t n a r bs left) : Tiles t a (a + (r - left)) bs := by
  induction h with
  | ended => exact .nil
  | spent =>
    rw [Nat.sub_self]
    exact .nil
  | stuck =>
    rw [Nat.sub_self]
    exact .nil
  | last _ _ hend => exact hend
  | @step n a r s left rest _ _ _ hs hrest ih =>
    obtain ⟨hmem, halign, hle, -⟩ := hs
    have hleft := hrest.left_le
    have he : a + (r - left) = a + s + (r - s - left) := by omega
    rw [he]
    exact .whole hmem halign ih

end Scans

/-! ## The answer of a scan -/

variable {total maxSlots : Nat} {l : Layout} {s : Shortfall}

theorem cover_eq_ok (h : cover total maxSlots t = .ok l) :
    (coverFrom t (min maxSlots 16) 0 total).2 = 0 ∧
      l.blocks = (coverFrom t (min maxSlots 16) 0 total).1 := by
  simp only [cover] at h
  split at h
  · rename_i hleft
    cases h
    exact ⟨hleft, rfl⟩
  · cases h

theorem cover_eq_ok_iff :
    cover total maxSlots t = .ok l ↔ Scans t (min maxSlots 16) 0 total l.blocks 0 := by
  constructor
  · intro h
    obtain ⟨hleft, hblocks⟩ := cover_eq_ok h
    exact coverFrom_eq_iff.mp (Prod.ext hblocks.symm hleft)
  · intro h
    simp only [cover, h.coverFrom_eq, ↓reduceIte]

theorem cover_eq_error_iff : cover total maxSlots t = .error s ↔
    ∃ bs, Scans t (min maxSlots 16) 0 total bs s.remaining ∧ s.remaining ≠ 0 ∧
      bs.length = s.slotsUsed := by
  constructor
  · intro h
    simp only [cover] at h
    split at h
    · cases h
    · rename_i hleft
      cases h
      exact ⟨_, scans_coverFrom t _ 0 total, hleft, rfl⟩
  · rintro ⟨bs, hscan, hleft, hlen⟩
    simp only [cover, hscan.coverFrom_eq, if_neg hleft, hlen]

theorem tiles_of_cover (h : cover total maxSlots t = .ok l) :
    Tiles t 0 total l.blocks ∧ l.length ≤ min maxSlots 16 := by
  have hscan := cover_eq_ok_iff.mp h
  have htiles := hscan.tiles
  rw [Nat.sub_zero, Nat.zero_add] at htiles
  exact ⟨htiles, hscan.length_le⟩

/-! ## Layouts that were found -/

/-- The blocks of the layout share out the addresses below `total` among them. -/
structure Partitions (t : SizeTable) (total : Nat) (l : Layout) : Prop where
  base_head : ∀ b ∈ l.blocks.head?, b.base = 0
  chain : l.blocks.IsChain fun b b' => b'.base = b.finish
  finish_last : (l.blocks.getLast?.map Block.finish).getD 0 = total
  holders : ∀ x, l.blocks.countP (fun b => decide (b.Holds x)) = if x < total then 1 else 0
  covered_eq : l.covered = total
  listed : ∀ b ∈ l.blocks, b.size ∈ t.sizes ∧ b.base % b.size = 0
  whole : ∀ b ∈ l.blocks.dropLast, b.eighths = 0
  last : ∀ b ∈ l.blocks.getLast?, b.eighths = 0 ∨
    1 ≤ b.eighths ∧ b.eighths ≤ 7 ∧ 8 / t.subdivisions ∣ b.eighths ∧ 256 ≤ b.size

/-- **A layout that was found shares out the image.** It keeps to the budget; its blocks follow
each other without gap or overlap from address zero to the end of the image and no further. -/
theorem cover_partitions {t : SizeTable} {total maxSlots : Nat} {l : Layout}
    (h : cover total maxSlots t = .ok l) :
    l.length ≤ min maxSlots 16 ∧ l.Partitions t total := by
  obtain ⟨htiles, hlen⟩ := tiles_of_cover h
  refine ⟨hlen, ?_⟩
  exact {
    base_head := htiles.base_head
    chain := htiles.chain
    finish_last := htiles.finish_getLast
    holders := fun x => by simpa using htiles.countP_holds x
    covered_eq := by simpa using htiles.covered_add
    listed := htiles.mem_sizes
    whole := htiles.eighths_dropLast
    last := fun b hb => htiles.eighths_cases b (List.mem_of_getLast? hb) }

/-- 104 KB take two blocks, the second with five eighths of its 64 KB. -/
theorem cover_partitions_reference :
    cover 0x1A000 6 .reference = .ok ⟨[.whole 0 0x10000, ⟨0x10000, 0x10000, 5⟩]⟩ ∧
      Partitions .reference 0x1A000 ⟨[.whole 0 0x10000, ⟨0x10000, 0x10000, 5⟩]⟩ :=
  have h : cover 0x1A000 6 .reference = .ok ⟨[.whole 0 0x10000, ⟨0x10000, 0x10000, 5⟩]⟩ := by rfl
  ⟨h, (cover_partitions h).2⟩

end Layout

/-! ## No tiling has fewer blocks -/

theorem add_le_of_dvd_of_lt {m x y : Nat} (hx : m ∣ x) (hy : m ∣ y) (h : x < y) : x + m ≤ y := by
  have := Nat.le_of_dvd (by omega : 0 < y - x) (Nat.dvd_sub hy hx)
  omega

/-- A tiling can be cut at `p` if no region that starts below `p` reaches past it. -/
theorem Tiles.split {e p : Nat} {bs : List Block} (h : Tiles t a e bs) (hap : a ≤ p) (hpe : p ≤ e)
    (hclear : ∀ b ∈ bs, b.base < p → b.base + b.size ≤ p) :
    ∃ rest, Tiles t p e rest ∧ rest.length ≤ bs.length := by
  induction h with
  | nil =>
    have : p = _ := Nat.le_antisymm hpe hap
    subst this
    exact ⟨[], .nil, Nat.le_refl _⟩
  | @whole a e s rest hs ha hrest ih =>
    by_cases hp : p = a
    · subst hp
      exact ⟨_, .whole hs ha hrest, Nat.le_refl _⟩
    have hfit : a + s ≤ p :=
      hclear (.whole a s) List.mem_cons_self (by simp only [Block.base_whole]; omega)
    obtain ⟨rest', htiles, hlen⟩ :=
      ih hfit hpe (fun b hb => hclear b (List.mem_cons_of_mem _ hb))
    exact ⟨rest', htiles, Nat.le_succ_of_le hlen⟩
  | @lowest a s k hs ha hk hkd =>
    by_cases hp : p = a
    · subst hp
      exact ⟨_, .lowest hs ha hk hkd, Nat.le_refl _⟩
    -- the region of the last block reaches past the end of the tiling
    have hfit : a + s ≤ p :=
      hclear (.lowest t a s k) List.mem_cons_self (by simp only [Block.base_lowest]; omega)
    have hlt := SizeTable.mul_subBlockSize_lt hs hkd
    omega

/-- Where no single block ends the image, the largest aligned size can come first. Regions that
start between `a` and `a + s` are smaller than `s`, and aligned, so they end by `a + s`. -/
theorem Tiles.exchange {s : Nat} {bs : List Block} (h : Tiles t a (a + r) bs) (hr : r ≠ 0)
    (hno : ∀ b, ¬ Tiles t a (a + r) [b]) (hs : t.IsLargestFit a r s) :
    ∃ rest, Tiles t (a + s) (a + r) rest ∧ rest.length < bs.length := by
  obtain ⟨hmem, halign, hle, hmax⟩ := hs
  generalize he : a + r = e at h hno ⊢
  cases h with
  | nil => omega
  | lowest hs' ha hk hkd => exact absurd (.lowest hs' ha hk hkd) (hno _)
  | @whole _ _ s' rest hs' ha hrest =>
    have hfit := hrest.le
    have hpos := SizeTable.pos_of_mem hs'
    have hs's : s' ≤ s := hmax s' hs' ha (by omega)
    have hclear : ∀ b ∈ rest, b.base < a + s → b.base + b.size ≤ a + s := by
      intro b hb hbase
      obtain ⟨hbs, hba⟩ := hrest.mem_sizes b hb
      have hafter := (hrest.bounds b hb).1
      have hsa : s ∣ a := Nat.dvd_of_mod_eq_zero halign
      have hbb : b.size ∣ b.base := Nat.dvd_of_mod_eq_zero hba
      by_cases hsz : b.size ≤ s
      · have hdvd := SizeTable.dvd_of_mem_of_le hbs hmem hsz
        exact add_le_of_dvd_of_lt hbb (Nat.dvd_add (Nat.dvd_trans hdvd hsa) hdvd) hbase
      · have hdvd := SizeTable.dvd_of_mem_of_le hmem hbs (by omega)
        have := add_le_of_dvd_of_lt hsa (Nat.dvd_trans hdvd hbb) (by omega)
        omega
    obtain ⟨rest', htiles, hlen⟩ := hrest.split (by omega) (by omega) hclear
    exact ⟨rest', htiles, Nat.lt_succ_of_le hlen⟩

namespace Layout

/-- With a budget for some tiling, a scan leaves nothing over and takes no more blocks. -/
theorem Scans.of_tiles (h : Scans t n a r bs left) :
    ∀ cs, Tiles t a (a + r) cs → cs.length ≤ n → left = 0 ∧ bs.length ≤ cs.length := by
  induction h with
  | ended => exact fun _ _ _ => ⟨rfl, Nat.zero_le _⟩
  | @spent a r hr =>
    intro cs hcs hlen
    have hnil : cs = [] := List.length_eq_zero_iff.mp (Nat.le_zero.mp hlen)
    subst hnil
    have := Tiles.nil_iff.mp hcs
    omega
  | @stuck n a r hr _ hno hlt =>
    intro cs hcs _
    generalize he : a + r = e at hcs hno
    cases hcs with
    | nil => omega
    | lowest hs' ha hk hkd => exact absurd (.lowest hs' ha hk hkd) (hno _)
    | whole hs' ha hrest =>
      have := hlt _ hs' ha
      have := hrest.le
      omega
  | @last n a r b hr _ _ =>
    intro cs hcs _
    cases cs with
    | nil =>
      have := Tiles.nil_iff.mp hcs
      omega
    | cons => exact ⟨rfl, Nat.succ_le_succ (Nat.zero_le _)⟩
  | @step n a r s left rest hr _ hno hs _ ih =>
    intro cs hcs hlen
    obtain ⟨cs', hcs', hshort⟩ := hcs.exchange (Nat.ne_of_gt hr) hno hs
    have he : a + r = a + s + (r - s) := by
      have := hs.2.2.1
      omega
    rw [he] at hcs'
    obtain ⟨hleft, hfew⟩ := ih cs' hcs' (by omega)
    exact ⟨hleft, Nat.le_trans (Nat.succ_le_succ hfew) hshort⟩

theorem coverFrom_of_tiles (t : SizeTable) (n a r : Nat) (cs : List Block)
    (h : Tiles t a (a + r) cs) (hlen : cs.length ≤ n) :
    (coverFrom t n a r).2 = 0 ∧ (coverFrom t n a r).1.length ≤ cs.length :=
  (scans_coverFrom t n a r).of_tiles cs h hlen

/-- **The scan finds a shortest tiling.** It answers a layout exactly when some tiling of the image
keeps to the budget, and then its own is a tiling, and no tiling whatever has fewer blocks. -/
theorem cover_shortest (t : SizeTable) (total maxSlots : Nat) :
    ((∃ l, cover total maxSlots t = .ok l) ↔
      ∃ bs, Tiles t 0 total bs ∧ bs.length ≤ min maxSlots 16) ∧
    ∀ l, cover total maxSlots t = .ok l →
      Tiles t 0 total l.blocks ∧ ∀ bs, Tiles t 0 total bs → l.length ≤ bs.length := by
  refine ⟨⟨?_, ?_⟩, ?_⟩
  · rintro ⟨l, hl⟩
    exact ⟨l.blocks, tiles_of_cover hl⟩
  · rintro ⟨bs, htiles, hlen⟩
    have hleft := (coverFrom_of_tiles t _ 0 total bs (by rwa [Nat.zero_add]) hlen).1
    exact ⟨⟨(coverFrom t (min maxSlots 16) 0 total).1⟩, by simp [cover, hleft]⟩
  · intro l hl
    obtain ⟨htiles, hlen⟩ := tiles_of_cover hl
    refine ⟨htiles, fun bs hbs => ?_⟩
    by_cases hfit : bs.length ≤ min maxSlots 16
    · rw [length, (cover_eq_ok hl).2]
      exact (coverFrom_of_tiles t _ 0 total bs (by rwa [Nat.zero_add]) hfit).2
    · omega

/-- No tiling of 104 KB makes do with one block. -/
theorem two_le_length_of_tiles_reference :
    cover 0x1A000 6 .reference = .ok ⟨[.whole 0 0x10000, ⟨0x10000, 0x10000, 5⟩]⟩ ∧
      ∀ bs, Tiles .reference 0 0x1A000 bs → 2 ≤ bs.length :=
  have h : cover 0x1A000 6 .reference = .ok ⟨[.whole 0 0x10000, ⟨0x10000, 0x10000, 5⟩]⟩ := by rfl
  ⟨h, ((cover_shortest .reference 0x1A000 6).2 _ h).2⟩

end Layout
end CodeGuard
