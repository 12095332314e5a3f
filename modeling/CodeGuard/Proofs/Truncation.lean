import CodeGuard.Proofs.Messages
import CodeGuard.Proofs.Retention

/-!
# CodeGuard.Proofs.Truncation

What a message keeps of a text that comes in parts.

* `Log.LongestPrefix`: the longest run of first characters within a number of bytes.
  `Log.longestPrefix_iff`: `fit` finds it.
* `Log.Resumes`: a part comes after the cut and starts within the room that is left.
* `Log.fitParts_eq_fit_iff`: the message is cut as if the text came in one part, exactly if no part
  resumes.
* `Log.log_truncates_iff`: the same for what a call puts into a log.
-/

namespace CodeGuard
namespace Log

variable {room : Nat} {cs ds text : List Char} {parts : List (List Char)}

/-! ## One part -/

/-- `cs` is the longest run of first characters of `text` that takes at most `room` bytes. -/
structure LongestPrefix (room : Nat) (text cs : List Char) : Prop where
  isPrefix : cs <+: text
  byteLength_le : byteLength cs ≤ room
  longest : ∀ ds, ds <+: text → byteLength ds ≤ room → ds <+: cs

@[simp] theorem byteLength_cons (c : Char) (cs : List Char) :
    byteLength (c :: cs) = c.utf8Size + byteLength cs := rfl

theorem byteLength_replicate (n : Nat) (c : Char) :
    byteLength (.replicate n c) = n * c.utf8Size := by
  induction n with
  | zero => exact (Nat.zero_mul _).symm
  | succ n ih => rw [List.replicate_succ, byteLength_cons, ih, Nat.succ_mul, Nat.add_comm]

theorem fit_isPrefix (room : Nat) (text : List Char) : fit room text <+: text := by
  induction text generalizing room with
  | nil => exact List.nil_prefix
  | cons c rest ih =>
    rw [fit]
    split
    · exact List.cons_prefix_cons.mpr ⟨rfl, ih _⟩
    · exact List.nil_prefix

theorem byteLength_fit_le (room : Nat) (text : List Char) : byteLength (fit room text) ≤ room := by
  induction text generalizing room with
  | nil => exact Nat.zero_le room
  | cons c rest ih =>
    rw [fit]
    split
    · have hrest := ih (room - c.utf8Size)
      rw [byteLength_cons]
      omega
    · exact Nat.zero_le room

theorem prefix_fit (hds : ds <+: text) (hroom : byteLength ds ≤ room) : ds <+: fit room text := by
  induction text generalizing room ds with
  | nil => rwa [fit]
  | cons c rest ih =>
    cases ds with
    | nil => exact List.nil_prefix
    | cons d ds =>
      obtain ⟨rfl, htail⟩ := List.cons_prefix_cons.mp hds
      rw [byteLength_cons] at hroom
      rw [fit, if_pos (by omega)]
      exact List.cons_prefix_cons.mpr ⟨rfl, ih htail (by omega)⟩

theorem longestPrefix_iff : LongestPrefix room text cs ↔ cs = fit room text := by
  constructor
  · intro h
    have hle := h.longest _ (fit_isPrefix room text) (byteLength_fit_le room text)
    exact (prefix_fit h.isPrefix h.byteLength_le).eq_of_length_le hle.length_le
  · rintro rfl
    exact ⟨fit_isPrefix room text, byteLength_fit_le room text, fun _ => prefix_fit⟩

theorem fit_append_of_le (h : byteLength cs ≤ room) :
    fit room (cs ++ ds) = cs ++ fit (room - byteLength cs) ds := by
  induction cs generalizing room with
  | nil => rfl
  | cons c cs ih =>
    rw [byteLength_cons] at h
    rw [List.cons_append, fit, if_pos (by omega), ih (by omega), byteLength_cons, Nat.sub_sub]
    rfl

/-- What does not fit as a whole is cut before anything that follows. -/
theorem fit_append_of_lt (h : room < byteLength cs) : fit room (cs ++ ds) = fit room cs := by
  induction cs generalizing room with
  | nil => exact absurd h (Nat.not_lt_zero room)
  | cons c cs ih =>
    rw [byteLength_cons] at h
    rw [List.cons_append, fit, fit]
    split
    · rw [ih (by omega)]
    · rfl

theorem fit_eq_nil_iff : fit room cs = [] ↔ ∀ c ∈ cs.head?, room < c.utf8Size := by
  cases cs with
  | nil => simp [fit]
  | cons c cs =>
    rw [fit]
    split
    · simpa
    · simpa using Nat.lt_of_not_le ‹_›

/-! ## Several parts -/

/-- A part comes after the first one that is cut, and starts with a character that has room in what
the cut left. -/
def Resumes : (room : Nat) → (parts : List (List Char)) → Prop
  | _, [] => False
  | room, part :: rest =>
    if byteLength part ≤ room then Resumes (room - byteLength part) rest
    else ∃ later ∈ rest, ∃ c ∈ later.head?, c.utf8Size ≤ room - byteLength (fit room part)

/-- Looks at the first characters only, never at all characters there are. -/
instance decidableResumes : (room : Nat) → (parts : List (List Char)) → Decidable (Resumes room parts)
  | _, [] => inferInstanceAs (Decidable False)
  | room, part :: rest =>
    have := decidableResumes (room - byteLength part) rest
    have : Decidable (∃ later ∈ rest, ∃ c ∈ later.head?,
        c.utf8Size ≤ room - byteLength (fit room part)) :=
      decidable_of_iff (rest.any fun later => later.head?.any fun c =>
        decide (c.utf8Size ≤ room - byteLength (fit room part))) (by simp [Option.any_eq_true])
    inferInstanceAs (Decidable (if byteLength part ≤ room then Resumes (room - byteLength part) rest
      else ∃ later ∈ rest, ∃ c ∈ later.head?, c.utf8Size ≤ room - byteLength (fit room part)))

theorem fitParts_eq_nil_iff :
    fitParts room parts = [] ↔ ∀ part ∈ parts, ∀ c ∈ part.head?, room < c.utf8Size := by
  induction parts with
  | nil => simp [fitParts]
  | cons part rest ih =>
    rw [fitParts, List.append_eq_nil_iff, fit_eq_nil_iff, List.forall_mem_cons]
    refine and_congr_right fun hpart => ?_
    -- a part of which nothing is kept leaves the room as it was
    rw [fit_eq_nil_iff.mpr hpart]
    exact ih

theorem fitParts_cons_of_le {part : List Char} (h : byteLength part ≤ room) :
    fitParts room (part :: parts) = part ++ fitParts (room - byteLength part) parts := by
  rw [fitParts, fit_eq_self part h]

theorem fitParts_eq_fit_iff : fitParts room parts = fit room parts.flatten ↔ ¬ Resumes room parts := by
  induction parts generalizing room with
  | nil => simp [fitParts, fit, Resumes]
  | cons part rest ih =>
    rw [List.flatten_cons, Resumes]
    by_cases hpart : byteLength part ≤ room
    · rw [if_pos hpart, fitParts_cons_of_le hpart, fit_append_of_le hpart,
        List.append_cancel_left_eq]
      exact ih
    · rw [if_neg hpart, fitParts, fit_append_of_lt (Nat.lt_of_not_le hpart),
        List.append_right_eq_self, fitParts_eq_nil_iff]
      simp

theorem byteLength_append (cs ds : List Char) :
    byteLength (cs ++ ds) = byteLength cs + byteLength ds := by
  simp only [byteLength_eq_utf8Len, String.utf8Len_append]

theorem byteLength_fitParts_le (room : Nat) (parts : List (List Char)) :
    byteLength (fitParts room parts) ≤ room := by
  induction parts generalizing room with
  | nil => exact Nat.zero_le room
  | cons part rest ih =>
    have hpart := byteLength_fit_le room part
    have hrest := ih (room - byteLength (fit room part))
    rw [fitParts, byteLength_append]
    omega

theorem fitParts_sublist (room : Nat) (parts : List (List Char)) :
    (fitParts room parts).Sublist parts.flatten := by
  induction parts generalizing room with
  | nil => exact List.Sublist.slnil
  | cons part rest ih =>
    rw [fitParts, List.flatten_cons]
    exact (fit_isPrefix room part).sublist.append (ih _)

/-! ## Messages in a log -/

theorem toList_clip (parts : List String) :
    (clip parts).toList = fitParts maxMessage (parts.map String.toList) := by
  rw [clip, String.toList_ofList]

theorem toList_clip_singleton (s : String) : (clip [s]).toList = fit maxMessage s.toList := by
  rw [toList_clip, List.map_singleton, fitParts, fitParts, List.append_nil]

theorem latest?_write {l : Log} {e : Entry} (hadm : l.admits e.level = true) :
    (l.write e).latest? = some e := by
  rw [latest?, RingBuffer.latest?_eq_getLast?]
  show (l.write e).entries.getLast? = _
  rw [(extends_write hadm).entries, getLast?_rtake (by decide), List.getLast?_concat]

/-- **A message is cut at its end, unless a part resumes.** Whatever the parts of its text, an
admitted call records a message of at most 128 bytes that has characters of the text in their order.
It is the longest run of first characters of the text, and the same as if the text came in one part,
exactly if no part that comes after the cut starts within the room that is left. -/
theorem log_truncates_iff {l : Log} {level : Level} (hadm : l.admits level = true)
    (timestamp : UInt32) (component : String) (parts : List String) :
    ∃ e, (l.log level timestamp component parts).latest? = some e ∧
      e.level = level ∧ e.timestamp = timestamp ∧ e.component = component ∧
      e.message.utf8ByteSize ≤ 128 ∧ e.message.toList.Sublist (String.join parts).toList ∧
      (LongestPrefix 128 (String.join parts).toList e.message.toList ↔
        ¬ Resumes 128 (parts.map String.toList)) ∧
      (e.message = clip [String.join parts] ↔ ¬ Resumes 128 (parts.map String.toList)) := by
  have htext : (String.join parts).toList = (parts.map String.toList).flatten := by
    rw [String.toList_join, List.flatMap_def]
  have hsize : (clip parts).utf8ByteSize ≤ 128 := by
    rw [← String.utf8Len_toList, ← byteLength_eq_utf8Len, toList_clip]
    exact byteLength_fitParts_le _ _
  refine ⟨⟨level, timestamp, component, clip parts⟩, latest?_write hadm, rfl, rfl, rfl, hsize, ?_,
    ?_, ?_⟩
  · rw [toList_clip, htext]
    exact fitParts_sublist _ _
  · rw [toList_clip, htext, longestPrefix_iff]
    exact fitParts_eq_fit_iff
  · rw [← String.toList_inj, toList_clip, toList_clip_singleton, htext]
    exact fitParts_eq_fit_iff

/-- A text that has one byte left where it comes to the é, which takes two. -/
def textWithWide (last : Char) : List String :=
  [String.ofList (.replicate 127 'a'), String.ofList ['é'], String.ofList [last]]

theorem toList_textWithWide (last : Char) :
    (textWithWide last).map String.toList = [.replicate 127 'a', ['é'], [last]] := by
  simp only [textWithWide, List.map_cons, List.map_nil, String.toList_ofList]

/-- The ü does not fit the one byte either. -/
theorem log_truncates_wide :
    ∃ e, (({} : Log).log .warn 7 "mpu" (textWithWide 'ü')).latest? = some e ∧
      LongestPrefix 128 (String.join (textWithWide 'ü')).toList e.message.toList := by
  have hadm : ({} : Log).admits .warn = true := rfl
  obtain ⟨e, hlatest, -, -, -, -, -, hprefix, -⟩ :=
    log_truncates_iff hadm 7 "mpu" (textWithWide 'ü')
  have hnone : ¬ Resumes 128 ((textWithWide 'ü').map String.toList) := by
    rw [toList_textWithWide, Resumes, byteLength_replicate, if_pos (by decide)]
    decide
  exact ⟨e, hlatest, hprefix.mpr hnone⟩

/-- The b takes the byte that the é did not fit. -/
theorem log_drops_within :
    ∃ e, (({} : Log).log .warn 7 "mpu" (textWithWide 'b')).latest? = some e ∧
      e.message.toList = .replicate 127 'a' ++ ['b'] ∧
      ¬ LongestPrefix 128 (String.join (textWithWide 'b')).toList e.message.toList ∧
      e.message ≠ clip [String.join (textWithWide 'b')] := by
  have htext : (String.join (textWithWide 'b')).toList = .replicate 127 'a' ++ ['é', 'b'] := by
    rw [String.toList_join, List.flatMap_def, toList_textWithWide]
    rfl
  have hmessage : (clip (textWithWide 'b')).toList = .replicate 127 'a' ++ ['b'] := by
    have hfits : byteLength (.replicate 127 'a') ≤ maxMessage := by
      rw [byteLength_replicate]
      decide
    rw [toList_clip, toList_textWithWide, fitParts_cons_of_le hfits, byteLength_replicate]
    rfl
  have hnot : ¬ LongestPrefix 128 (String.join (textWithWide 'b')).toList
      (clip (textWithWide 'b')).toList := by
    intro h
    have hprefix := h.isPrefix
    rw [htext, hmessage, List.prefix_append_right_inj] at hprefix
    exact absurd hprefix (by decide)
  refine ⟨⟨.warn, 7, "mpu", clip (textWithWide 'b')⟩, latest?_write rfl, hmessage, hnot, fun h => ?_⟩
  rw [longestPrefix_iff, ← toList_clip_singleton] at hnot
  exact hnot (congrArg String.toList h)

end Log
end CodeGuard
