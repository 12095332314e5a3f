import CodeGuard.Proofs.Building
import CodeGuard.Proofs.Checking
import CodeGuard.Proofs.Words

/-!
# CodeGuard.Proofs.Trapping

What is done with a layout once it was found, with numbers that are words: it is checked, added up,
and made into a table of regions.

* `Words.check_eq`, `Words.covered_eq`, `Words.build_eq`, `Words.codeSize_eq`: each goes without a
  trap where no block reaches past the address space.
* `Words.Chooses`, `Words.Handles`: what is asked of a size table, and of a layout.
* `Words.trap_free`: so nothing traps from the cut of an image to the size of its table, and the
  answers are those of numbers without bounds.
-/

namespace CodeGuard

theorem RegionSize.pos_of_ofBytes? {n : Nat} {size : RegionSize} (h : ofBytes? n = some size) :
    0 < n := by
  rw [← ofBytes?_eq_some_iff.mp h]
  exact Nat.lt_of_lt_of_le (by decide) size.thirtyTwo_le_bytes

namespace Words

variable {t : SizeTable} {b : Block} {bs : List Block} {l : Layout}

/-! ## Sums -/

def sum {α : Type} (bytes : α → Except Trap Nat) (xs : List α) : Except Trap Nat :=
  xs.foldlM (fun total x => do add total (← bytes x)) 0

def covered (l : Layout) : Except Trap Nat :=
  sum consumed l.blocks

section Sum

variable {α : Type} {f : α → Except Trap Nat} {g : α → Nat} {xs : List α}

theorem foldlM_add_eq {total : Nat} (hf : ∀ x ∈ xs, f x = .ok (g x))
    (hsum : total + xs.foldr (fun x rest => g x + rest) 0 < UInt32.size) :
    xs.foldlM (fun total x => do add total (← f x)) total =
      .ok (total + xs.foldr (fun x rest => g x + rest) 0) := by
  induction xs generalizing total with
  | nil => rfl
  | cons x rest ih =>
    obtain ⟨hx, hrest⟩ := List.forall_mem_cons.mp hf
    rw [List.foldr_cons, ← Nat.add_assoc] at hsum ⊢
    -- what is added up so far is no larger than the sum of all, which is a word
    rw [List.foldlM_cons, hx, ok_bind, add_eq (by omega), ok_bind, ih hrest hsum]

theorem sum_eq (hf : ∀ x ∈ xs, f x = .ok (g x))
    (hsum : xs.foldr (fun x rest => g x + rest) 0 < UInt32.size) :
    sum f xs = .ok (xs.foldr (fun x rest => g x + rest) 0) := by
  rw [← Nat.zero_add (xs.foldr _ 0)] at hsum ⊢
  exact foldlM_add_eq hf hsum

end Sum

/-! ## The check of a layout -/

def checkFrom (t : SizeTable) : Nat → List Block → Except Trap (Except Error Nat)
  | expected, [] => .ok (.ok expected)
  | expected, b :: rest =>
    if ¬ t.contains b.size ∨ Limits.subregions < b.eighths then
      .ok (.error .invalidRegionSize)
    else do
      let offset ← rem b.base b.size
      if offset ≠ 0 then
        .ok (.error .invalidAlignment)
      else if b.base ≠ expected then
        .ok (.error .regionTableMismatch)
      else
        let next ← finish b
        checkFrom t next rest

def check (l : Layout) (total : Nat) (t : SizeTable) : Except Trap (Except Error Unit) := do
  match ← checkFrom t Limits.codeBase l.blocks with
  | .error e => .ok (.error e)
  | .ok finish =>
    let bytes ← sub finish Limits.codeBase
    .ok (if bytes = total then .ok () else .error .regionTableMismatch)

/-- A block is divided by its size only where that size is listed, so it is not zero. -/
theorem checkFrom_eq (hend : ∀ b ∈ bs, b.finish < UInt32.size) (expected : Nat) :
    checkFrom t expected bs = .ok (Layout.checkFrom t expected bs) := by
  induction bs generalizing expected with
  | nil => rfl
  | cons b rest ih =>
    obtain ⟨hb, hrest⟩ := List.forall_mem_cons.mp hend
    rw [checkFrom, Layout.checkFrom]
    split
    · rfl
    · rename_i hlisted
      have hmem : b.size ∈ t.sizes := by
        refine List.contains_iff_mem.mp (Decidable.not_not.mp fun hno => hlisted (.inl ?_))
        exact hno
      rw [rem_eq (SizeTable.pos_of_mem hmem), ok_bind]
      split
      · rfl
      · split
        · rfl
        · rw [finish_eq hb, ok_bind, ih hrest]

theorem check_eq (hend : ∀ b ∈ l.blocks, b.finish < UInt32.size) (total : Nat) (t : SizeTable) :
    check l total t = .ok (l.check total t) := by
  rw [check, checkFrom_eq hend, ok_bind, Layout.check]
  cases Layout.checkFrom t Limits.codeBase l.blocks with
  | error e => rfl
  | ok finish => simp only [sub_eq (Nat.zero_le finish), ok_bind]

theorem covered_eq (h : l.covered < UInt32.size) (hend : ∀ b ∈ l.blocks, b.finish < UInt32.size) :
    covered l = .ok l.covered := by
  refine sum_eq (fun b hb => consumed_eq ?_) h
  have hfin := hend b hb
  rw [Block.finish] at hfin
  omega

/-! ## The table of regions -/

/-- A power of two; the exponent has to be that of a word. -/
def twoPow (x : Nat) : Except Trap Nat :=
  if x < 32 then .ok (1 <<< x) else .error .overflow

def word (x : Nat) : Except Trap UInt32 :=
  if x < UInt32.size then .ok (UInt32.ofNat x) else .error .overflow

def ofBytes? (bytes : Nat) : Except Trap (Option RegionSize) :=
  if bytes.isPowerOfTwo ∧ Limits.minRegion ≤ bytes then do
    let code ← byte (← sub bytes.log2 1)
    .ok (RegionSize.ofCode? code.toNat)
  else
    .ok none

def bytes (s : RegionSize) : Except Trap Nat := do
  let exponent ← add s.code 1
  twoPow exponent

def consumedBy (s : Slot) : Except Trap Nat := do
  let size ← bytes s.size
  portion size s.eighths

def ofBlock (id : UInt8) (b : Block) : Except Trap (Except Error Slot) := do
  match ← ofBytes? b.size with
  | none => .ok (.error .invalidRegionSize)
  | some size =>
    let offset ← rem b.base b.size
    if offset ≠ 0 then
      .ok (.error .invalidAlignment)
    else
      let base ← word b.base
      .ok (.ok {
        id
        base
        size
        eighths := b.eighths
        permission := .readOnly
        executable := true
        memory := .normalWriteThrough
        enabled := true })

/-- Code slots behind those that were `made`. -/
def codeSlots (made : List Slot) (id : Nat) : List Block → Except Trap (Except Error (List Slot))
  | [] => .ok (.ok made)
  | b :: rest => do
    let number ← byte id
    match ← ofBlock number b with
    | .error e => .ok (.error e)
    | .ok slot =>
      let made ← push made slot
      let next ← add id 1
      codeSlots made next rest

def wellFormed (w : Window) : Except Trap Bool :=
  if w.size.toNat.isPowerOfTwo ∧ Limits.minRegion ≤ w.size.toNat then do
    let offset ← rem w.base.toNat w.size.toNat
    .ok (offset = 0)
  else
    .ok false

def ofBackground (w : Window) (executable : Bool) : Except Trap (Except Error Slot) := do
  if ← wellFormed w then
    match ← ofBytes? w.size.toNat with
    | none => .ok (.error .invalidRegionSize)
    | some size =>
      .ok (.ok {
        id := 0
        base := w.base
        size
        eighths := 0
        permission := .fullAccess
        executable
        memory := .normalWriteThrough
        enabled := true })
  else
    .ok (.error .invalidAlignment)

/-- Whether the sum on the way to the guard is a word is asked beforehand, so it cannot trap. -/
def guardBase? (codeEnd guardSize : UInt32) : Except Trap (Option UInt32) := do
  let mask ← sub guardSize.toNat 1
  if codeEnd.toNat + mask < UInt32.size then
    let reach ← add codeEnd.toNat mask
    let count ← div reach guardSize.toNat
    let base ← word (← mul count guardSize.toNat)
    .ok (some base)
  else
    .ok none

def ofGuard (id : UInt8) (codeEnd guardSize : UInt32) : Except Trap (Except Error Slot) := do
  match ← ofBytes? guardSize.toNat with
  | none => .ok (.error .invalidRegionSize)
  | some size =>
    match ← guardBase? codeEnd guardSize with
    | none => .ok (.error .invalidParameter)
    | some base =>
      .ok (.ok {
        id
        base
        size
        eighths := 0
        permission := .noAccess
        executable := false
        memory := .stronglyOrdered
        enabled := true })

def build (l : Layout) (codeEnd : UInt32) (config : Config) :
    Except Trap (Except Error RegionTable) := do
  let needed ← add l.length Limits.reservedRegions
  if Limits.maxRegions < needed then
    .ok (.error .tooManyRegions)
  else
    match ← codeSlots [] 1 l.blocks with
    | .error e => .ok (.error e)
    | .ok code =>
      let number ← byte (← add l.length 1)
      match ← ofBackground config.background false with
      | .error e => .ok (.error e)
      | .ok background =>
        match ← ofGuard number codeEnd config.guardSize with
        | .error e => .ok (.error e)
        | .ok guard => .ok (.ok ⟨background, code, guard, codeEnd⟩)

def codeSize (table : RegionTable) : Except Trap Nat :=
  sum consumedBy table.code

theorem twoPow_eq {x : Nat} (h : x < 32) : twoPow x = .ok (1 <<< x) := if_pos h

theorem word_eq {x : Nat} (h : x < UInt32.size) : word x = .ok (UInt32.ofNat x) := if_pos h

theorem ofBytes?_eq {n : Nat} (h : n < UInt32.size) : ofBytes? n = .ok (RegionSize.ofBytes? n) := by
  unfold ofBytes? RegionSize.ofBytes?
  split
  · rename_i hn
    have hne : n ≠ 0 := Nat.ne_of_gt (Nat.lt_of_lt_of_le (by decide) hn.2)
    have hlo : 5 ≤ n.log2 := (Nat.le_log2 hne).mpr hn.2
    have hhi : n.log2 < 32 := (Nat.log2_lt hne).mpr h
    have hbyte : n.log2 - 1 < UInt8.size :=
      Nat.lt_of_le_of_lt (Nat.sub_le _ _) (Nat.lt_trans hhi (by decide))
    rw [sub_eq (by omega), ok_bind, byte_eq hbyte, ok_bind, UInt8.toNat_ofNat_of_lt' hbyte]
  · rfl

theorem bytes_eq (s : RegionSize) : bytes s = .ok s.bytes := by
  have hcode : s.code + 1 ≤ 31 := Nat.succ_le_succ s.code_le_thirty
  rw [bytes, add_eq (Nat.lt_of_le_of_lt hcode (by decide)), ok_bind,
    twoPow_eq (Nat.lt_succ_of_le hcode), RegionSize.bytes]

theorem consumedBy_eq {s : Slot} (h : s.consumed < UInt32.size) :
    consumedBy s = .ok s.consumed := by
  rw [consumedBy, bytes_eq, ok_bind]
  exact portion_eq h

theorem ofBlock_eq (hbase : b.base < UInt32.size) (hsize : b.size < UInt32.size) (id : UInt8) :
    ofBlock id b = .ok (Slot.ofBlock id b) := by
  rw [ofBlock, ofBytes?_eq hsize, ok_bind, Slot.ofBlock]
  cases hn : RegionSize.ofBytes? b.size with
  | none => rfl
  | some size =>
    simp only [rem_eq (RegionSize.pos_of_ofBytes? hn), ok_bind]
    split
    · rfl
    · rw [word_eq hbase, ok_bind]

theorem codeSlots_eq {made : List Slot} {id : Nat}
    (hbs : ∀ b ∈ bs, b.base < UInt32.size ∧ b.size < UInt32.size)
    (hroom : made.length + bs.length ≤ Limits.maxRegions) (hid : id + bs.length < UInt8.size) :
    codeSlots made id bs = .ok ((RegionTable.codeSlots id bs).map (made ++ ·)) := by
  induction bs generalizing made id with
  | nil =>
    rw [codeSlots, RegionTable.codeSlots, Except.map, List.append_nil]
  | cons b rest ih =>
    obtain ⟨⟨hbase, hsize⟩, hrest⟩ := List.forall_mem_cons.mp hbs
    rw [List.length_cons] at hroom hid
    rw [codeSlots, byte_eq (by omega), ok_bind, ofBlock_eq hbase hsize, ok_bind,
      RegionTable.codeSlots]
    cases Slot.ofBlock (UInt8.ofNat id) b with
    | error e => rfl
    | ok slot =>
      have hlen : (made ++ [slot]).length + rest.length ≤ Limits.maxRegions := by
        rw [List.length_append, List.length_singleton]
        omega
      have hword : id + 1 < UInt32.size := Nat.lt_trans (by omega : id + 1 < UInt8.size) (by decide)
      simp only
      rw [push_eq (by omega), ok_bind, add_eq hword, ok_bind, ih hrest hlen (by omega)]
      cases RegionTable.codeSlots (id + 1) rest with
      | error e => rfl
      | ok slots => simp only [Except.map, List.append_assoc, List.singleton_append]

theorem wellFormed_eq (w : Window) : wellFormed w = .ok (decide w.WellFormed) := by
  unfold wellFormed
  split
  · rename_i hw
    have hpos : 0 < w.size.toNat := Nat.lt_of_lt_of_le (by decide) hw.2
    have hiff : w.base.toNat % w.size.toNat = 0 ↔ w.WellFormed :=
      ⟨fun h => ⟨hw.1, hw.2, h⟩, fun h => h.2.2⟩
    rw [rem_eq hpos, ok_bind, decide_eq_decide.mpr hiff]
  · rename_i hw
    have hno : ¬ w.WellFormed := fun h => hw ⟨h.1, h.2.1⟩
    rw [decide_eq_false hno]

theorem ofBackground_eq (w : Window) (executable : Bool) :
    ofBackground w executable = .ok (Slot.ofBackground w executable) := by
  rw [ofBackground, wellFormed_eq, ok_bind, Slot.ofBackground]
  by_cases hw : w.WellFormed
  · rw [if_pos (decide_eq_true hw), if_neg (not_not_intro hw), ofBytes?_eq w.size.toNat_lt_size,
      ok_bind]
    cases RegionSize.ofBytes? w.size.toNat with
    | none => rfl
    | some size => rfl
  · rw [if_neg (by simpa using hw), if_pos hw]

theorem guardBase?_eq {codeEnd guardSize : UInt32} (hpos : 0 < guardSize.toNat) :
    guardBase? codeEnd guardSize = .ok (Slot.guardBase? codeEnd guardSize) := by
  rw [guardBase?, sub_eq hpos, ok_bind, Slot.guardBase?]
  split
  · rename_i hreach
    have hbase := Nat.lt_of_le_of_lt (Nat.div_mul_le_self _ guardSize.toNat) hreach
    rw [add_eq hreach, ok_bind, div_eq hpos, ok_bind, mul_eq hbase, ok_bind, word_eq hbase, ok_bind]
  · rfl

theorem ofGuard_eq (id : UInt8) (codeEnd guardSize : UInt32) :
    ofGuard id codeEnd guardSize = .ok (Slot.ofGuard id codeEnd guardSize) := by
  rw [ofGuard, ofBytes?_eq guardSize.toNat_lt_size, ok_bind, Slot.ofGuard]
  cases hn : RegionSize.ofBytes? guardSize.toNat with
  | none => rfl
  | some size =>
    simp only [guardBase?_eq (RegionSize.pos_of_ofBytes? hn), ok_bind]
    cases Slot.guardBase? codeEnd guardSize with
    | none => rfl
    | some base => rfl

theorem build_eq (hlen : l.length ≤ Limits.maxRegions)
    (hbs : ∀ b ∈ l.blocks, b.base < UInt32.size ∧ b.size < UInt32.size)
    (codeEnd : UInt32) (config : Config) :
    build l codeEnd config = .ok (RegionTable.build l codeEnd config) := by
  have hneeded : l.length + Limits.reservedRegions ≤ 18 := Nat.add_le_add_right hlen _
  have hroom : ([] : List Slot).length + l.blocks.length ≤ Limits.maxRegions := by
    rwa [List.length_nil, Nat.zero_add]
  have hid : 1 + l.blocks.length < UInt8.size :=
    Nat.lt_of_le_of_lt (Nat.add_le_add_left hlen 1) (by decide)
  have hnumber : l.length + 1 ≤ 17 := Nat.succ_le_succ hlen
  rw [build, add_eq (Nat.lt_of_le_of_lt hneeded (by decide)), ok_bind, RegionTable.build,
    RegionTable.assemble, Config.regionsNeeded]
  split
  · rfl
  rw [codeSlots_eq hbs hroom hid, ok_bind]
  cases RegionTable.codeSlots 1 l.blocks with
  | error e => rfl
  | ok code =>
    simp only [Except.map, List.nil_append]
    rw [add_eq (Nat.lt_of_le_of_lt hnumber (by decide)), ok_bind,
      byte_eq (Nat.lt_of_le_of_lt hnumber (by decide)), ok_bind, ofBackground_eq, ok_bind]
    cases Slot.ofBackground config.background false with
    | error e => rfl
    | ok background =>
      simp only
      rw [ofGuard_eq, ok_bind]
      cases Slot.ofGuard (UInt8.ofNat (l.length + 1)) codeEnd config.guardSize with
      | error e => rfl
      | ok guard => rfl

theorem codeSize_eq {table : RegionTable} (h : table.codeSize < UInt32.size)
    (hcode : ∀ s ∈ table.code, s.consumed < UInt32.size) :
    codeSize table = .ok table.codeSize :=
  sum_eq (fun s hs => consumedBy_eq (hcode s hs)) h

/-! ## From the cut to the table -/

/-- A block is chosen without a trap, whatever the address and whatever is left. Each makes headway
and stays within the image, and a count of eighths is no whole region. -/
structure Chooses (t : SizeTable) : Prop where
  subBlockSize : ∀ s ∈ t.sizes, 32 ≤ t.subBlockSize s
  exactFit_eq : ∀ a r, exactFit? t a r = .ok (t.exactFit? a r)
  bestFit_eq : ∀ a r, bestFit? t a r = .ok (t.bestFit? a r)
  consumed : ∀ a r b, t.nextBlock? a r = some b → 1 ≤ b.consumed ∧ b.consumed ≤ r
  eighths : ∀ a r b, t.nextBlock? a r = some b → b.eighths = 0 ∨ 1 ≤ b.eighths ∧ b.eighths ≤ 7

theorem chooses (t : SizeTable) : Chooses t where
  subBlockSize _ hs := SizeTable.thirtyTwo_le_subBlockSize hs
  exactFit_eq := exactFit?_eq t
  bestFit_eq := bestFit?_eq t
  consumed _ _ _ hb :=
    have ⟨hpos, hle, _⟩ := SizeTable.consumed_of_nextBlock? hb
    ⟨hpos, hle⟩
  eighths _ _ b hb := by
    obtain ⟨-, -, h7⟩ := SizeTable.consumed_of_nextBlock? hb
    omega

/-- What is done with the layout answers without a trap, and as with numbers that have no bounds. -/
structure Handles (l : Layout) : Prop where
  covered_eq : covered l = .ok l.covered
  finish_eq : ∀ b ∈ l.blocks, finish b = .ok b.finish
  check_eq : ∀ total t, check l total t = .ok (l.check total t)
  build_eq : ∀ codeEnd config, build l codeEnd config = .ok (RegionTable.build l codeEnd config)
  codeSize_eq : ∀ codeEnd config table, RegionTable.build l codeEnd config = .ok table →
    codeSize table = .ok table.codeSize

variable {total : UInt32} {maxSlots : Nat}

/-- Blocks that tile an image below 2³² end there, and so does their sum. -/
theorem handles_of_cover (h : Layout.cover total.toNat maxSlots t = .ok l) : Handles l := by
  obtain ⟨htiles, hlen⟩ := Layout.tiles_of_cover h
  have htotal := total.toNat_lt_size
  have hcovered : l.covered = total.toNat := by simpa using htiles.covered_add
  have hend : ∀ b ∈ l.blocks, b.finish < UInt32.size :=
    fun b hb => Nat.lt_of_le_of_lt (htiles.bounds b hb).2 htotal
  have hsize : ∀ b ∈ l.blocks, b.size < UInt32.size := fun b hb =>
    Nat.lt_of_le_of_lt (SizeTable.le_of_mem (htiles.mem_sizes b hb).1) (by decide)
  have hbase := RegionTable.base_lt_of_tiles htiles
  exact {
    covered_eq := covered_eq (by omega) hend
    finish_eq := fun b hb => finish_eq (hend b hb)
    check_eq := check_eq hend
    build_eq := build_eq (Nat.le_trans hlen (Nat.min_le_right _ _))
      fun b hb => ⟨hbase b hb, hsize b hb⟩
    codeSize_eq := by
      intro codeEnd config table htable
      have hassembles := RegionTable.assembles_of_build h htable
      refine codeSize_eq (by rw [hassembles.codeSize_eq]; omega) fun s hs => ?_
      obtain ⟨b, hb, hprotects⟩ := RegionTable.exists_of_forall₂ hassembles.code s hs
      have hfin := hend b hb
      rw [hprotects.consumed]
      rw [Block.finish] at hfin
      omega }

/-- **Nothing traps on the way from an image to its table.** For every size of the image that is a
word, whatever the budget, the cut goes without a trap, and so does all that is done with a layout
that it finds: adding up its blocks, checking them against any table and any size, making a table of
regions for any end of the code and any configuration, and adding that up. -/
theorem trap_free (t : SizeTable) (total : UInt32) (maxSlots : Nat) :
    Chooses t ∧
      cover total.toNat maxSlots t = .ok (Layout.cover total.toNat maxSlots t) ∧
      ∀ l, Layout.cover total.toNat maxSlots t = .ok l → Handles l :=
  ⟨chooses t, cover_eq total.toNat_lt_size, fun _ h => handles_of_cover h⟩

/-- Of the 4 GB that there are, 3.75 GB are cut into two regions of 2 GB, the second with seven
eighths of it. -/
theorem trap_free_wide :
    Layout.cover (0xF0000000 : UInt32).toNat 6
        ⟨[0x40000000, 0x80000000], 8, by decide, by decide, by decide, by decide, by decide⟩ =
      .ok ⟨[.whole 0 0x80000000, ⟨0x80000000, 0x80000000, 7⟩]⟩ ∧
    Handles ⟨[.whole 0 0x80000000, ⟨0x80000000, 0x80000000, 7⟩]⟩ :=
  have h : Layout.cover (0xF0000000 : UInt32).toNat 6
      ⟨[0x40000000, 0x80000000], 8, by decide, by decide, by decide, by decide, by decide⟩ =
    .ok ⟨[.whole 0 0x80000000, ⟨0x80000000, 0x80000000, 7⟩]⟩ := by rfl
  ⟨h, (trap_free _ 0xF0000000 6).2.2 _ h⟩

end Words
end CodeGuard
