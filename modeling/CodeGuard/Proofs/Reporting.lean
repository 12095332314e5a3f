import CodeGuard.Proofs.Deciding
import CodeGuard.Proofs.Messages
import CodeGuard.Proofs.Retention

/-!
# CodeGuard.Proofs.Reporting

What a boot says in the log, and that it is true.

* `Config.CutNotes`, `Protection.Verdict`: the notes on the cut, and the last word, written out.
* `Protection.Reports`: all notes of a boot, in order, with what they tell of its outcome.
* `Protection.extends_notes`: a log takes the notes that its threshold admits, each as it is.
* `Protection.establish_reports`: every boot reports so.
-/

namespace CodeGuard

/-! ## Notes on the cut -/

namespace Config

/-- What is said of cutting the image: of an invalid configuration nothing; else, for each block in
the order of the addresses, its base, its size and how many eighths of it are on, or how much is left
over and after how many regions. -/
inductive CutNotes (config : Config) : List Note → Prop where
  | invalid : config.validate ≠ .ok () → CutNotes config []
  | cut {l : Layout} :
      config.validate = .ok () → config.Cuts l →
      (l.blocks.Pairwise fun b b' => b.finish ≤ b'.base) →
      CutNotes config (l.blocks.map fun b =>
        ⟨.debug, "code 0x" ++ String.ofList ((Nat.toDigits 16 b.base).leftpad 8 '0') ++
          " size 0x" ++ String.ofList (Nat.toDigits 16 b.size) ++ " sub " ++ toString b.eighths⟩)
  | short {s : Shortfall} :
      config.validate = .ok () → config.FallsShort s →
      CutNotes config [⟨.warn, "split failed, code unprotected: " ++
        ("region budget exceeded: " ++ toString s.remaining ++ " bytes uncovered after " ++
          toString s.slotsUsed ++ " regions")⟩]

variable {config : Config} {l : Layout} {s : Shortfall} {t : RegionTable}
  {table : Except Error RegionTable} {covers : Bool} {notes : List Note}

theorem Cuts.tiles (h : config.Cuts l) :
    ∃ sizes, Tiles sizes 0 config.codeSize.toNat l.blocks := by
  obtain ⟨sizes, -, hcover⟩ := h
  exact ⟨sizes, (Layout.tiles_of_cover hcover).1⟩

theorem Cuts.brief (h : config.Cuts l) : ∀ b ∈ l.blocks, (Note.block b).Brief := by
  obtain ⟨sizes, htiles⟩ := h.tiles
  intro b hb
  have htotal := config.codeSize.toNat_lt
  have hbounds := (htiles.bounds b hb).2
  have hsize := RegionSize.ofBytes?_isSome_iff.mp (sizes.listable _ (htiles.mem_sizes b hb).1).1
  have heighths := htiles.eighths_cases b hb
  rw [Block.finish] at hbounds
  exact Note.brief_block (by omega) (by omega) (by omega)

theorem FallsShort.brief (h : config.FallsShort s) : (Note.shortfall s).Brief := by
  obtain ⟨sizes, -, hcover⟩ := h
  have htotal := config.codeSize.toNat_lt
  obtain ⟨bs, hscan, -, hlen⟩ := Layout.cover_eq_error_iff.mp hcover
  have hused : s.slotsUsed ≤ Limits.maxRegions :=
    hlen ▸ Nat.le_trans hscan.length_le (Nat.min_le_right _ _)
  exact Note.brief_shortfall (Nat.lt_of_le_of_lt hscan.left_le htotal)
    (Nat.lt_of_le_of_lt hused (by decide))

theorem Drafts.cutNotes (h : config.Drafts ⟨table, covers, notes⟩) : config.CutNotes notes := by
  cases h with
  | rejected hinvalid =>
    refine .invalid ?_
    rw [hinvalid]
    exact nofun
  | protecting hvalid hcuts =>
    obtain ⟨sizes, htiles⟩ := hcuts.tiles
    rw [List.map_congr_left fun b _ => Note.block_eq b]
    exact .cut hvalid hcuts htiles.pairwise
  | degraded hvalid hshort => exact .short hvalid hshort
  | cornered hvalid hshort => exact .short hvalid hshort

theorem CutNotes.brief (h : config.CutNotes notes) : ∀ n ∈ notes, n.Brief := by
  cases h with
  | invalid => exact nofun
  | cut _ hcuts =>
    intro n hn
    obtain ⟨b, hb, rfl⟩ := List.mem_map.mp hn
    rw [← Note.block_eq]
    exact hcuts.brief b hb
  | short _ hshort =>
    intro n hn
    rw [List.mem_singleton.mp hn]
    exact hshort.brief

/-- Only an image that cannot be cut is warned of; nothing worse is said before the table is
loaded. -/
theorem CutNotes.level (h : config.CutNotes notes) :
    ∀ n ∈ notes, n.level = .debug ∨ n.level = .warn ∧ ∃ s, config.FallsShort s := by
  cases h with
  | invalid => exact nofun
  | cut =>
    intro n hn
    obtain ⟨b, -, rfl⟩ := List.mem_map.mp hn
    exact .inl rfl
  | short _ hshort =>
    intro n hn
    rw [List.mem_singleton.mp hn]
    exact .inr ⟨rfl, _, hshort⟩

theorem CutNotes.of_fallsShort (h : config.CutNotes notes) (hvalid : config.validate = .ok ())
    (hshort : config.FallsShort s) : ∃ n ∈ notes, n.level = .warn := by
  cases h with
  | invalid hinvalid => exact absurd hvalid hinvalid
  | cut _ hcuts => exact absurd hshort hcuts.not_fallsShort
  | short => exact ⟨_, List.mem_singleton_self _, rfl⟩

end Config

/-! ## The last word -/

namespace Config

variable {config : Config} {t : RegionTable} {notes : List Note}

/-- A table that covers the image has the figures of the cut. -/
theorem Drafts.of_covers (h : config.Drafts ⟨.ok t, true, notes⟩) :
    ∃ l, config.Cuts l ∧ t.codeSize = config.codeSize.toNat ∧ t.code.length = l.length := by
  cases h with
  | protecting _ hcuts ht =>
    have hasm := hcuts.assembles ht
    obtain ⟨sizes, htiles⟩ := hcuts.tiles
    have hcovered := htiles.covered_add
    rw [Nat.zero_add] at hcovered
    exact ⟨_, hcuts, hasm.codeSize_eq.trans hcovered, hasm.code.length_eq⟩

theorem Drafts.of_not_covers (h : config.Drafts ⟨.ok t, false, notes⟩) :
    ∃ s, config.validate = .ok () ∧ config.FallsShort s := by
  cases h with
  | degraded hvalid hshort => exact ⟨_, hvalid, hshort⟩

end Config

namespace Protection

/-- What is said at last: that there is no table, that the unit refused it, or, of a table in force
that has the image in its regions, how large the image is and how many regions it takes. -/
inductive Verdict (config : Config) (c : Core) (p : Protection) : List Note → Prop where
  | noTable {e : Error} :
      p.table = none → p.active = false →
      config.validate = .error e ∨ RegionTable.unprotected config.codeSize config = .error e →
      Verdict config c p [⟨.error, "no protection table: " ++ e.message⟩]
  | refused {t : RegionTable} {e : LoadError} :
      p.table = some t → c.load t = .ok (c, .error e) → p.active = false →
      Verdict config c p [⟨.error, "programming failed: " ++ e.message⟩]
  | degraded {t : RegionTable} {c' : Core} {s : Shortfall} :
      p.table = some t → c.load t = .ok (c', .ok ()) → p.active = false →
      config.validate = .ok () → config.FallsShort s → Verdict config c p []
  | protecting {t : RegionTable} {c' : Core} {l : Layout} :
      p.table = some t → c.load t = .ok (c', .ok ()) → p.active = true → config.Cuts l →
      Verdict config c p [⟨.info, "code protected: " ++ toString config.codeSize.toNat ++
        " bytes in " ++ toString l.length ++ " regions"⟩]

variable {config : Config} {c c' : Core} {p : Protection} {cut verdict notes : List Note}

/-- All that a boot says, in order, and what it tells of the outcome. -/
structure Reports (config : Config) (c : Core) (p : Protection) (notes : List Note) : Prop where
  sequence : ∃ cut verdict, notes = ⟨.debug, "platform sim"⟩ :: (cut ++ verdict) ∧
    config.CutNotes cut ∧ Verdict config c p verdict
  error_iff : (∃ n ∈ notes, n.level = .error) ↔
    p.table = none ∨ ∃ t e, p.table = some t ∧ c.load t = .ok (c, .error e)
  info_iff : (∃ n ∈ notes, n.level = .info) ↔ p.active = true
  inactive_iff : p.active = false ↔ ∃ n ∈ notes, n.level = .warn ∨ n.level = .error
  unclipped : ∀ n ∈ notes, n.text.utf8ByteSize ≤ 128 ∧ Log.clip [n.text] = n.text

theorem Ends.says (h : Ends config c c' p notes) :
    ∃ cut verdict, notes = cut ++ verdict ∧ config.CutNotes cut ∧ Verdict config c p verdict := by
  cases h with
  | @noTable e cut hdrafts =>
    refine ⟨cut, [.noTable e], rfl, hdrafts.cutNotes, .noTable rfl rfl ?_⟩
    cases hdrafts with
    | rejected hinvalid => exact .inl hinvalid
    | cornered _ _ ht => exact .inr ht
  | @refused t _ cut e hdrafts _ hload =>
    exact ⟨cut, [.loadFailed e], rfl, hdrafts.cutNotes, .refused rfl hload rfl⟩
  | @loaded t covers cut _ hdrafts _ hload =>
    refine ⟨cut, _, rfl, hdrafts.cutNotes, ?_⟩
    cases covers with
    | false =>
      obtain ⟨s, hvalid, hshort⟩ := hdrafts.of_not_covers
      exact .degraded rfl hload rfl hvalid hshort
    | true =>
      obtain ⟨l, hcuts, hcode, hlen⟩ := hdrafts.of_covers
      have hverdict := Verdict.protecting (p := ⟨some t, config.codeSize, true⟩) rfl hload rfl hcuts
      rw [← hcode, ← hlen] at hverdict
      exact hverdict

theorem Ends.brief (h : Ends config c c' p notes) : ∀ n ∈ notes, n.Brief := by
  have happend : ∀ {table covers cut} {last : List Note}, config.Drafts ⟨table, covers, cut⟩ →
      (∀ n ∈ last, n.Brief) → ∀ n ∈ cut ++ last, n.Brief := by
    intro table covers cut last hdrafts hlast n hn
    rcases List.mem_append.mp hn with hn | hn
    · exact hdrafts.cutNotes.brief n hn
    · exact hlast n hn
  cases h with
  | noTable hdrafts =>
    exact happend hdrafts (List.forall_mem_singleton.mpr (Note.brief_noTable _))
  | @refused t _ _ _ hdrafts _ hload =>
    refine happend hdrafts (List.forall_mem_singleton.mpr ?_)
    have hlen := hdrafts.length_le
    have hcount := config.hardwareRegions.toNat_lt
    obtain ⟨-, ⟨-, rfl⟩ | ⟨-, -, rfl⟩⟩ := Core.load_eq_error_iff.mp hload
    · exact Note.brief_loadFailed_notPresent
    · exact Note.brief_loadFailed_tooManyRegions (by omega) _
  | @loaded t covers _ _ hdrafts =>
    refine happend hdrafts ?_
    cases covers with
    | false => exact nofun
    | true =>
      obtain ⟨l, hcuts, hcode, hlen⟩ := hdrafts.of_covers
      have htotal := config.codeSize.toNat_lt
      have hslots := hcuts.length_le
      have hmax := config.maxCodeSlots.toNat_lt
      exact List.forall_mem_singleton.mpr (Note.brief_protecting (by omega) (by omega))

/-! ## What the notes tell -/

theorem Verdict.error_iff (h : Verdict config c p verdict) : (∃ n ∈ verdict, n.level = .error) ↔
    p.table = none ∨ ∃ t e, p.table = some t ∧ c.load t = .ok (c, .error e) := by
  -- a table that was loaded is there, and was not refused
  have hloaded : ∀ {t c'}, p.table = some t → c.load t = .ok (c', .ok ()) →
      ¬ (p.table = none ∨ ∃ t e, p.table = some t ∧ c.load t = .ok (c, .error e)) := by
    rintro t c' ht hload (hnone | ⟨t', e, ht', hload'⟩)
    · rw [ht] at hnone
      cases hnone
    · rw [ht] at ht'
      cases ht'
      rw [hload] at hload'
      cases hload'
  cases h with
  | noTable hnone => exact iff_of_true ⟨_, List.mem_singleton_self _, rfl⟩ (.inl hnone)
  | refused ht hload =>
    exact iff_of_true ⟨_, List.mem_singleton_self _, rfl⟩ (.inr ⟨_, _, ht, hload⟩)
  | degraded ht hload => exact iff_of_false (by simp) (hloaded ht hload)
  | protecting ht hload => exact iff_of_false (by simp) (hloaded ht hload)

theorem Verdict.info_iff (h : Verdict config c p verdict) :
    (∃ n ∈ verdict, n.level = .info) ↔ p.active = true := by
  cases h with
  | noTable _ hactive => simp [hactive]
  | refused _ _ hactive => simp [hactive]
  | degraded _ _ hactive => simp [hactive]
  | protecting _ _ hactive => simp [hactive]

/-- Before the last word there is no error and no success. -/
theorem exists_level_iff (hcut : config.CutNotes cut) {level : Log.Level} (hdebug : level ≠ .debug)
    (hwarn : level ≠ .warn) : (∃ n ∈ Note.platform :: (cut ++ verdict), n.level = level) ↔
      ∃ n ∈ verdict, n.level = level := by
  constructor
  · rintro ⟨n, hn, rfl⟩
    rcases List.mem_cons.mp hn with rfl | hn
    · exact absurd rfl hdebug
    · rcases List.mem_append.mp hn with hn | hn
      · rcases hcut.level n hn with hlevel | ⟨hlevel, -⟩
        · exact absurd hlevel hdebug
        · exact absurd hlevel hwarn
      · exact ⟨n, hn, rfl⟩
  · rintro ⟨n, hn, hlevel⟩
    exact ⟨n, List.mem_cons_of_mem _ (List.mem_append_right _ hn), hlevel⟩

theorem Verdict.inactive_iff (h : Verdict config c p verdict) (hcut : config.CutNotes cut) :
    p.active = false ↔
      ∃ n ∈ Note.platform :: (cut ++ verdict), n.level = .warn ∨ n.level = .error := by
  constructor
  · intro hactive
    have hlast : ∀ {n}, n ∈ verdict → n ∈ Note.platform :: (cut ++ verdict) :=
      fun hn => List.mem_cons_of_mem _ (List.mem_append_right _ hn)
    cases h with
    | noTable => exact ⟨_, hlast (List.mem_singleton_self _), .inr rfl⟩
    | refused => exact ⟨_, hlast (List.mem_singleton_self _), .inr rfl⟩
    | degraded _ _ _ hvalid hshort =>
      obtain ⟨n, hn, hlevel⟩ := hcut.of_fallsShort hvalid hshort
      exact ⟨n, by simp [hn], .inl hlevel⟩
    | protecting _ _ hyes =>
      rw [hactive] at hyes
      cases hyes
  · rintro ⟨n, hn, hlevel⟩
    cases h with
    | noTable _ hactive => exact hactive
    | refused _ _ hactive => exact hactive
    | degraded _ _ hactive => exact hactive
    | protecting _ _ _ hcuts =>
      -- an image that was cut is not warned of
      exfalso
      rcases List.mem_cons.mp hn with rfl | hn
      · simp [Note.platform] at hlevel
      · rcases List.mem_append.mp hn with hn | hn
        · rcases hcut.level n hn with hdebug | ⟨-, s, hshort⟩
          · simp [hdebug] at hlevel
          · exact hcuts.not_fallsShort hshort
        · rw [List.mem_singleton.mp hn] at hlevel
          simp at hlevel

/-! ## Taking the notes -/

end Protection

/-- The entry of a boot note, before there is a clock. -/
def Note.entry (n : Note) : Log.Entry :=
  ⟨n.level, 0, "mpu", n.text⟩

namespace Protection

theorem logNote_eq_write (log : Log) {n : Note} (h : n.Brief) : logNote log n = log.write n.entry := by
  rw [logNote, Log.log, Log.clip_eq_self h]
  rfl

theorem extends_notes (notes : List Note) : ∀ log : Log, (∀ n ∈ notes, n.Brief) →
    log.Extends (notes.foldl logNote log)
        ((notes.map Note.entry).filter fun e => log.admits e.level) ∧
      (notes.foldl logNote log).threshold = log.threshold := by
  induction notes with
  | nil =>
    intro log _
    exact ⟨.refl log, rfl⟩
  | cons n rest ih =>
    intro log hbrief
    obtain ⟨hn, hrest⟩ := List.forall_mem_cons.mp hbrief
    obtain ⟨hext, hthreshold⟩ := ih (log.write n.entry) hrest
    -- a note leaves the threshold as it is, so the rest is admitted as before
    simp only [Log.admits_write, Log.threshold_write] at hext hthreshold
    rw [List.foldl_cons, logNote_eq_write log hn, List.map_cons, List.filter_cons]
    refine ⟨?_, hthreshold⟩
    cases hadm : log.admits n.entry.level with
    | true =>
      rw [if_pos rfl]
      exact (Log.extends_write hadm).trans hext
    | false =>
      rw [if_neg Bool.false_ne_true]
      rwa [Log.write_of_not_admits hadm] at hext ⊢

/-- **A boot says what came of it.** Whatever the configuration, the core and the log, the log takes
the notes that its threshold admits, in order and unclipped: the platform, the cut, the last word.
There is an error exactly if there is no table or the unit refused it, a success exactly if the
protection is active, and a warning or an error exactly if it is not. -/
theorem establish_reports (config : Config) {c : Core} (log : Log)
    (h16 : c.regionCount.toNat ≤ 16) :
    ∃ c' p log' notes, establish config c log = .ok (c', p, log') ∧ Reports config c p notes ∧
      log.Extends log' ((notes.map Note.entry).filter fun e => log.admits e.level) ∧
      log'.threshold = log.threshold := by
  obtain ⟨c', p, notes, hboot, hends⟩ := exists_ends config h16
  have hbrief : ∀ n ∈ Note.platform :: notes, n.Brief :=
    List.forall_mem_cons.mpr ⟨Note.brief_platform, hends.brief⟩
  obtain ⟨hext, hthreshold⟩ := extends_notes _ log hbrief
  obtain ⟨cut, verdict, rfl, hcut, hverdict⟩ := hends.says
  refine ⟨c', p, _, _, establish_eq_ok hboot log, ?_, hext, hthreshold⟩
  exact {
    sequence := ⟨cut, verdict, by rw [Note.platform_eq], hcut, hverdict⟩
    error_iff := (exists_level_iff hcut (by decide) (by decide)).trans hverdict.error_iff
    info_iff := (exists_level_iff hcut (by decide) (by decide)).trans hverdict.info_iff
    inactive_iff := hverdict.inactive_iff hcut
    unclipped := fun n hn => ⟨hbrief n hn, Log.clip_eq_self (hbrief n hn)⟩ }

/-- An image in two regions, with everything logged; and one that cannot be cut, on a unit with a
single region, which has no room for background and guard either, with warnings and errors logged. -/
theorem establish_reports_protecting_refused :
    (∃ c' p log' notes, establish { Config.reference with codeSize := 0x1A000 } (Core.reset 8 64)
        { threshold := .debug } = .ok (c', p, log') ∧
      Reports { Config.reference with codeSize := 0x1A000 } (Core.reset 8 64) p notes ∧
      p.active = true ∧
      log'.entries = [⟨.debug, 0, "mpu", "platform sim"⟩,
        ⟨.debug, 0, "mpu", "code 0x00000000 size 0x10000 sub 0"⟩,
        ⟨.debug, 0, "mpu", "code 0x00010000 size 0x10000 sub 5"⟩,
        ⟨.info, 0, "mpu", "code protected: 106496 bytes in 2 regions"⟩]) ∧
    ∃ p log' notes, establish { Config.reference with codeSize := 100 } (Core.reset 1 64)
        { threshold := .warn } = .ok (Core.reset 1 64, p, log') ∧
      Reports { Config.reference with codeSize := 100 } (Core.reset 1 64) p notes ∧
      p.active = false ∧
      log'.entries = [
        ⟨.warn, 0, "mpu", "split failed, code unprotected: region budget exceeded: " ++
          "100 bytes uncovered after 0 regions"⟩,
        ⟨.error, 0, "mpu", "programming failed: table needs 2 regions, MPU has 1"⟩] := by
  constructor
  · obtain ⟨c', p, log', notes, hrun, hreports, -⟩ :=
      establish_reports { Config.reference with codeSize := 0x1A000 } (c := Core.reset 8 64)
        { threshold := .debug } (by decide)
    obtain ⟨c₁, t, hboot⟩ : ∃ c₁ t, boot { Config.reference with codeSize := 0x1A000 }
        (Core.reset 8 64) = .ok (c₁, ⟨some t, 0x1A000, true⟩,
          [.platform, .block (.whole 0 0x10000), .block ⟨0x10000, 0x10000, 5⟩,
            ⟨.info, "code protected: 106496 bytes in 2 regions"⟩]) := ⟨_, _, rfl⟩
    cases (establish_eq_ok hboot _).symm.trans hrun
    exact ⟨_, _, _, notes, hrun, hreports, rfl, rfl⟩
  · obtain ⟨c', p, log', notes, hrun, hreports, -⟩ :=
      establish_reports { Config.reference with codeSize := 100 } (c := Core.reset 1 64)
        { threshold := .warn } (by decide)
    obtain ⟨t, hboot⟩ : ∃ t, boot { Config.reference with codeSize := 100 } (Core.reset 1 64) =
        .ok (Core.reset 1 64, ⟨some t, 100, false⟩,
          [.platform, .shortfall ⟨100, 0⟩, .loadFailed (.tooManyRegions 2 1)]) := ⟨_, rfl⟩
    cases (establish_eq_ok hboot _).symm.trans hrun
    exact ⟨_, _, notes, hrun, hreports, rfl, rfl⟩

end Protection
end CodeGuard
