import Mathlib.Data.String.Basic
import CodeGuard.Protection

/-!
# CodeGuard.Proofs.Messages

The texts of a boot written out, and how many bytes they take.

* `Log.clip_eq_self`: a message takes a text of at most 128 bytes as it is.
* `Hex.lower_eq`, `Hex.lower_one`: a hexadecimal number by its digits.
* `utf8ByteSize_toString_le`, `Hex.utf8ByteSize_lower_le`: a number takes a byte for each digit.
* `Note.Brief`: the text has room in a message. One lemma for each note of a boot; the numbers in
  them must not be larger than those of a 32-bit part.
* `Note.block_eq`: the note on a block, word by word.
-/

namespace CodeGuard

/-! ## Clipping -/

namespace Log

theorem byteLength_eq_utf8Len (cs : List Char) : byteLength cs = String.utf8Len cs := by
  induction cs with
  | nil => rfl
  | cons c cs ih =>
    rw [String.utf8Len_cons, ← ih, Nat.add_comm]
    rfl

theorem fit_eq_self (cs : List Char) : ∀ {room : Nat}, byteLength cs ≤ room → fit room cs = cs := by
  induction cs with
  | nil =>
    intro room _
    rfl
  | cons c cs ih =>
    intro room h
    have hsum : c.utf8Size + byteLength cs ≤ room := h
    rw [fit, if_pos (by omega), ih (by omega)]

theorem clip_eq_self {s : String} (h : s.utf8ByteSize ≤ maxMessage) : clip [s] = s := by
  have hfit : fit maxMessage s.toList = s.toList :=
    fit_eq_self _ (by rwa [byteLength_eq_utf8Len, String.utf8Len_toList])
  rw [clip, List.map_singleton, fitParts, hfit, fitParts, List.append_nil, String.ofList_toList]

end Log

/-! ## Numbers -/

theorem utf8Size_digitChar (d : Nat) : d.digitChar.utf8Size = 1 := by
  have hite : ∀ {p : Prop} [Decidable p] {a b : Char}, a.utf8Size = 1 → b.utf8Size = 1 →
      (if p then a else b).utf8Size = 1 := by
    intro p _ a b ha hb
    split
    · exact ha
    · exact hb
  unfold Nat.digitChar
  repeat' apply hite
  all_goals rfl

theorem utf8Size_of_mem_toDigits {b : Nat} (hb : 1 < b) (n : Nat) :
    ∀ c ∈ Nat.toDigits b n, c.utf8Size = 1 := by
  induction n using Nat.strongRecOn with
  | ind n ih =>
    intro c hc
    rw [Nat.toDigits_eq_if hb] at hc
    split at hc
    · rw [List.mem_singleton.mp hc, utf8Size_digitChar]
    · have hlt : n / b < n := Nat.div_lt_self (by omega) hb
      rcases List.mem_append.mp hc with hc | hc
      · exact ih _ hlt c hc
      · rw [List.mem_singleton.mp hc, utf8Size_digitChar]

theorem utf8Len_eq_length {cs : List Char} (h : ∀ c ∈ cs, c.utf8Size = 1) :
    String.utf8Len cs = cs.length := by
  induction cs with
  | nil => rfl
  | cons c cs ih =>
    obtain ⟨hc, hcs⟩ := List.forall_mem_cons.mp h
    rw [String.utf8Len_cons, ih hcs, hc, List.length_cons]

theorem utf8ByteSize_toString_le {n k : Nat} (hk : 0 < k) (h : n < 10 ^ k) :
    (toString n).utf8ByteSize ≤ k := by
  have hlen := (Nat.length_toDigits_le_iff (by decide) hk).mpr h
  show (String.ofList (Nat.toDigits 10 n)).utf8ByteSize ≤ k
  rwa [String.utf8ByteSize_ofList, utf8Len_eq_length (utf8Size_of_mem_toDigits (by decide) n)]

/-- A number of 32 bits. -/
theorem utf8ByteSize_toString_le_ten {n : Nat} (h : n < 2 ^ 32) : (toString n).utf8ByteSize ≤ 10 :=
  utf8ByteSize_toString_le (by decide) (by omega)

theorem Hex.lower_eq (width n : Nat) :
    Hex.lower width n = String.ofList ((Nat.toDigits 16 n).leftpad width '0') := rfl

/-- There is always one digit. -/
theorem Hex.lower_one (n : Nat) : Hex.lower 1 n = String.ofList (Nat.toDigits 16 n) := by
  rw [lower, pad, Nat.sub_eq_zero_of_le Nat.length_toDigits_pos, List.replicate_zero,
    List.nil_append]

theorem Hex.utf8ByteSize_lower_le {width n k : Nat} (hwidth : width ≤ k) (hk : 0 < k)
    (h : n < 16 ^ k) : (Hex.lower width n).utf8ByteSize ≤ k := by
  have hlen := (Nat.length_toDigits_le_iff (by decide) hk).mpr h
  have hone : ∀ c ∈ List.replicate (width - (Nat.toDigits 16 n).length) '0' ++ Nat.toDigits 16 n,
      c.utf8Size = 1 := by
    intro c hc
    rcases List.mem_append.mp hc with hc | hc
    · rw [List.eq_of_mem_replicate hc]
      rfl
    · exact utf8Size_of_mem_toDigits (by decide) n c hc
  rw [lower, pad, String.utf8ByteSize_ofList, utf8Len_eq_length hone, List.length_append,
    List.length_replicate]
  omega

theorem utf8ByteSize_append_le {s t : String} {m n : Nat} (hs : s.utf8ByteSize ≤ m)
    (ht : t.utf8ByteSize ≤ n) : (s ++ t).utf8ByteSize ≤ m + n := by
  rw [String.utf8ByteSize_append]
  exact Nat.add_le_add hs ht

/-! ## Notes -/

namespace Note

theorem platform_eq : platform = ⟨.debug, "platform sim"⟩ := by
  decide

theorem block_eq (b : Block) :
    block b = ⟨.debug, "code 0x" ++ String.ofList ((Nat.toDigits 16 b.base).leftpad 8 '0') ++
      " size 0x" ++ String.ofList (Nat.toDigits 16 b.size) ++ " sub " ++ toString b.eighths⟩ := by
  rw [block, Hex.lower_eq, Hex.lower_one]

/-- The text has room in a message. -/
def Brief (n : Note) : Prop :=
  n.text.utf8ByteSize ≤ Log.maxMessage

theorem brief_platform : platform.Brief := by
  rw [Brief]
  decide

theorem brief_block {b : Block} (hbase : b.base < 2 ^ 32) (hsize : b.size < 2 ^ 32)
    (heighths : b.eighths < 10) : (block b).Brief := by
  have hbase := Hex.utf8ByteSize_lower_le (Nat.le_refl 8) (by decide) hbase
  have hsize := Hex.utf8ByteSize_lower_le (show 1 ≤ 8 by decide) (by decide) hsize
  have heighths := utf8ByteSize_toString_le (k := 1) (by decide) heighths
  have h₁ : ("code 0x" ++ Hex.lower 8 b.base).utf8ByteSize ≤ 7 + 8 :=
    utf8ByteSize_append_le (by decide) hbase
  have h₂ := utf8ByteSize_append_le
    (utf8ByteSize_append_le h₁ (show " size 0x".utf8ByteSize ≤ 8 by decide)) hsize
  have h₃ := utf8ByteSize_append_le
    (utf8ByteSize_append_le h₂ (show " sub ".utf8ByteSize ≤ 5 by decide)) heighths
  exact Nat.le_trans h₃ (by decide)

theorem brief_shortfall {s : Shortfall} (hremaining : s.remaining < 2 ^ 32)
    (hused : s.slotsUsed < 2 ^ 32) : (shortfall s).Brief := by
  have hremaining := utf8ByteSize_toString_le_ten hremaining
  have hused := utf8ByteSize_toString_le_ten hused
  have h₁ : ("region budget exceeded: " ++ toString s.remaining).utf8ByteSize ≤ 24 + 10 :=
    utf8ByteSize_append_le (by decide) hremaining
  have h₂ := utf8ByteSize_append_le
    (utf8ByteSize_append_le h₁ (show " bytes uncovered after ".utf8ByteSize ≤ 23 by decide)) hused
  have hmessage : s.message.utf8ByteSize ≤ 24 + 10 + 23 + 10 + 8 :=
    utf8ByteSize_append_le h₂ (by decide)
  exact Nat.le_trans (utf8ByteSize_append_le (m := 32) (by decide) hmessage) (by decide)

theorem brief_noTable (e : Error) : (noTable e).Brief := by
  rw [Brief]
  cases e <;> decide

theorem brief_loadFailed_notPresent : (loadFailed .notPresent).Brief := by
  rw [Brief]
  decide

theorem brief_loadFailed_tooManyRegions {needed : Nat} (hneeded : needed < 2 ^ 32)
    (available : UInt8) : (loadFailed (.tooManyRegions needed available)).Brief := by
  have hlt := available.toNat_lt
  have hneeded := utf8ByteSize_toString_le_ten hneeded
  have havailable : (toString available).utf8ByteSize ≤ 3 :=
    utf8ByteSize_toString_le (n := available.toNat) (by decide) (by omega)
  have h₁ : ("table needs " ++ toString needed).utf8ByteSize ≤ 12 + 10 :=
    utf8ByteSize_append_le (by decide) hneeded
  have hmessage := utf8ByteSize_append_le
    (utf8ByteSize_append_le h₁ (show " regions, MPU has ".utf8ByteSize ≤ 18 by decide)) havailable
  exact Nat.le_trans (utf8ByteSize_append_le (m := 20) (by decide) hmessage) (by decide)

theorem brief_protecting {t : RegionTable} (hcode : t.codeSize < 2 ^ 32)
    (hlen : t.code.length < 2 ^ 32) : (protecting t).Brief := by
  have hcode := utf8ByteSize_toString_le_ten hcode
  have hlen := utf8ByteSize_toString_le_ten hlen
  have h₁ : ("code protected: " ++ toString t.codeSize).utf8ByteSize ≤ 16 + 10 :=
    utf8ByteSize_append_le (by decide) hcode
  have h₂ := utf8ByteSize_append_le
    (utf8ByteSize_append_le h₁ (show " bytes in ".utf8ByteSize ≤ 10 by decide)) hlen
  exact Nat.le_trans
    (utf8ByteSize_append_le h₂ (show " regions".utf8ByteSize ≤ 8 by decide)) (by decide)

end Note
end CodeGuard
