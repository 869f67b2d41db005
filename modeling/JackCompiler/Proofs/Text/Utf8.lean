import JackCompiler.Text.Utf8

/-!
# Decoding is the inverse of encoding

The decoder accepts just the encodings of texts, and gives the text that is encoded
(`Utf8.decode_eq_ok_iff`).
-/

namespace JackCompiler.Utf8

/-! ## Leading bytes -/

def lead₂ (a : Nat) : Partial :=
  ⟨1, 1, 0x80, 0xbf, a⟩

def lead₃ (a : Nat) : Partial :=
  ⟨1, 2, if a = 0 then 0xa0 else 0x80, if a = 13 then 0x9f else 0xbf, a⟩

def lead₄ (a : Nat) : Partial :=
  ⟨1, 3, if a = 0 then 0x90 else 0x80, if a = 4 then 0x8f else 0xbf, a⟩

theorem low_le {a k : Nat} {low : UInt8} (h : a = 0 → low.toNat ≤ k + 128) :
    (if a = 0 then low else 0x80).toNat ≤ k + 128 := by
  split
  · exact h ‹_›
  · exact Nat.le_add_left ..

theorem le_high {a top k : Nat} {high : UInt8} (hk : k < 64)
    (h : a = top → k + 128 ≤ high.toNat) : k + 128 ≤ (if a = top then high else 0xbf).toNat := by
  split
  · exact h ‹_›
  · show k + 128 ≤ 191
    omega

theorem begin?_one : ∀ {a : Nat}, a < 128 →
    begin? (UInt8.ofNat a) = some ⟨1, 0, 0x80, 0xbf, a⟩ := by
  decide

theorem begin?_two : ∀ {a : Nat}, a < 32 → 2 ≤ a →
    begin? (UInt8.ofNat (a + 192)) = some (lead₂ a) := by
  decide

theorem begin?_three : ∀ {a : Nat}, a < 16 →
    begin? (UInt8.ofNat (a + 224)) = some (lead₃ a) := by
  decide

theorem begin?_four : ∀ {a : Nat}, a < 5 →
    begin? (UInt8.ofNat (a + 240)) = some (lead₄ a) := by
  decide

theorem exists_ofNat_add (b : UInt8) (low high : Nat) (hlow : low ≤ b.toNat)
    (hhigh : b.toNat < high + low) : ∃ a < high, b = UInt8.ofNat (a + low) := by
  refine ⟨b.toNat - low, by omega, ?_⟩
  rw [Nat.sub_add_cancel hlow, UInt8.ofNat_toNat]

theorem begin?_cases {b : UInt8} {p : Partial} (h : begin? b = some p) :
    (∃ a < 128, b = UInt8.ofNat a) ∨ (∃ a < 32, 2 ≤ a ∧ b = UInt8.ofNat (a + 192)) ∨
      (∃ a < 16, b = UInt8.ofNat (a + 224)) ∨ ∃ a < 5, b = UInt8.ofNat (a + 240) := by
  have hranges : b.toNat < 128 ∨ (194 ≤ b.toNat ∧ b.toNat < 224) ∨
      (224 ≤ b.toNat ∧ b.toNat < 240) ∨ (240 ≤ b.toNat ∧ b.toNat < 245) := by
    simp only [begin?] at h
    grind
  rcases hranges with hb | ⟨hlow, hhigh⟩ | ⟨hlow, hhigh⟩ | ⟨hlow, hhigh⟩
  · exact .inl ⟨b.toNat, hb, by simp⟩
  · obtain ⟨a, ha, rfl⟩ := exists_ofNat_add b 192 32 (by omega) hhigh
    exact .inr (.inl ⟨a, ha, by simp at hlow; omega, rfl⟩)
  · exact .inr (.inr (.inl (exists_ofNat_add b 224 16 hlow hhigh)))
  · exact .inr (.inr (.inr (exists_ofNat_add b 240 5 hlow hhigh)))

/-! ## Continuations -/

def Partial.push (p : Partial) (k : Nat) : Partial :=
  ⟨p.read + 1, p.missing - 1, 0x80, 0xbf, p.code * 64 + k⟩

theorem toNat_tail {k : Nat} (hk : k < 64) : (UInt8.ofNat (k + 128)).toNat = k + 128 :=
  UInt8.toNat_ofNat_of_lt' (by rw [UInt8.size]; omega)

theorem extend?_tail {p : Partial} {k : Nat} (hk : k < 64) (hlow : p.low.toNat ≤ k + 128)
    (hhigh : k + 128 ≤ p.high.toNat) : p.extend? (UInt8.ofNat (k + 128)) = some (p.push k) := by
  have hnat := toNat_tail hk
  have hrange : p.low ≤ UInt8.ofNat (k + 128) ∧ UInt8.ofNat (k + 128) ≤ p.high := by
    rw [UInt8.le_iff_toNat_le, UInt8.le_iff_toNat_le, hnat]
    exact ⟨hlow, hhigh⟩
  rw [Partial.extend?, if_pos hrange, hnat, Nat.add_sub_cancel]
  rfl

def Partial.Confined (p : Partial) : Prop :=
  128 ≤ p.low.toNat ∧ p.high.toNat < 192

theorem confined_push (p : Partial) (k : Nat) : (p.push k).Confined :=
  show 128 ≤ (0x80 : UInt8).toNat ∧ (0xbf : UInt8).toNat < 192 by decide

theorem confined_lead₂ (a : Nat) : (lead₂ a).Confined :=
  show 128 ≤ (0x80 : UInt8).toNat ∧ (0xbf : UInt8).toNat < 192 by decide

theorem confined_lead₃ (a : Nat) : (lead₃ a).Confined := by
  unfold lead₃ Partial.Confined
  simp only
  exact ⟨by split <;> decide, by split <;> decide⟩

theorem confined_lead₄ (a : Nat) : (lead₄ a).Confined := by
  unfold lead₄ Partial.Confined
  simp only
  exact ⟨by split <;> decide, by split <;> decide⟩

theorem exists_tail_of_extend? {p q : Partial} {b : UInt8} (hp : p.Confined)
    (h : p.extend? b = some q) :
    ∃ k < 64, b = UInt8.ofNat (k + 128) ∧ q = p.push k ∧
      p.low.toNat ≤ k + 128 ∧ k + 128 ≤ p.high.toNat := by
  obtain ⟨hlow, hhigh⟩ := hp
  rw [Partial.extend?] at h
  split at h
  · rename_i hrange
    rw [UInt8.le_iff_toNat_le, UInt8.le_iff_toNat_le] at hrange
    obtain ⟨k, hk, rfl⟩ := exists_ofNat_add b 128 64 (by omega) (by omega)
    have hnat := toNat_tail hk
    rw [hnat] at hrange h
    rw [Nat.add_sub_cancel] at h
    exact ⟨k, hk, rfl, (Option.some.inj h).symm, hrange⟩
  · cases h

/-! ## Characters -/

/-- The bytes are a leading byte and its continuations, and stand for the character. Their
numbers are the bits of its code, and there is no shorter way to write it. -/
inductive Sequence : Char → List UInt8 → Prop
  | one {a : Nat} (ha : a < 128) : Sequence (Char.ofNat a) [UInt8.ofNat a]
  | two {a k : Nat} (ha : a < 32) (hk : k < 64) (hlow : 2 ≤ a) :
      Sequence (Char.ofNat (a * 64 + k)) [UInt8.ofNat (a + 192), UInt8.ofNat (k + 128)]
  | three {a k l : Nat} (ha : a < 16) (hk : k < 64) (hl : l < 64) (hlow : a = 0 → 32 ≤ k)
      (hhigh : a = 13 → k < 32) :
      Sequence (Char.ofNat ((a * 64 + k) * 64 + l))
        [UInt8.ofNat (a + 224), UInt8.ofNat (k + 128), UInt8.ofNat (l + 128)]
  | four {a k l m : Nat} (ha : a < 5) (hk : k < 64) (hl : l < 64) (hm : m < 64)
      (hlow : a = 0 → 16 ≤ k) (hhigh : a = 4 → k < 16) :
      Sequence (Char.ofNat (((a * 64 + k) * 64 + l) * 64 + m))
        [UInt8.ofNat (a + 240), UInt8.ofNat (k + 128), UInt8.ofNat (l + 128),
          UInt8.ofNat (m + 128)]

theorem toNat_ofNat {n : Nat} (h : n.isValidChar) : (Char.ofNat n).toNat = n := by
  rw [Char.ofNat, dif_pos h]
  rfl

theorem Sequence.eq_encode {c : Char} {u : List UInt8} (h : Sequence c u) :
    u = String.utf8EncodeChar c := by
  cases h with
  | @one a ha =>
    have hc : (Char.ofNat a).val.toNat = a := toNat_ofNat (.inl (by omega))
    simp only [String.utf8EncodeChar, hc]
    rw [if_pos (by omega)]
  | @two a k ha hk hlow =>
    have hc : (Char.ofNat (a * 64 + k)).val.toNat = a * 64 + k := toNat_ofNat (.inl (by omega))
    simp only [String.utf8EncodeChar, hc]
    rw [if_neg (by omega), if_pos (by omega), show (a * 64 + k) / 64 % 32 = a by omega,
      show (a * 64 + k) % 64 = k by omega]
  | @three a k l ha hk hl hlow hhigh =>
    have hc : (Char.ofNat ((a * 64 + k) * 64 + l)).val.toNat = (a * 64 + k) * 64 + l :=
      toNat_ofNat (by unfold Nat.isValidChar; omega)
    simp only [String.utf8EncodeChar, hc]
    rw [if_neg (by omega), if_neg (by omega), if_pos (by omega),
      show ((a * 64 + k) * 64 + l) / 4096 % 16 = a by omega,
      show ((a * 64 + k) * 64 + l) / 64 % 64 = k by omega,
      show ((a * 64 + k) * 64 + l) % 64 = l by omega]
  | @four a k l m ha hk hl hm hlow hhigh =>
    have hc : (Char.ofNat (((a * 64 + k) * 64 + l) * 64 + m)).val.toNat =
        ((a * 64 + k) * 64 + l) * 64 + m := toNat_ofNat (by unfold Nat.isValidChar; omega)
    simp only [String.utf8EncodeChar, hc]
    rw [if_neg (by omega), if_neg (by omega), if_neg (by omega),
      show (((a * 64 + k) * 64 + l) * 64 + m) / 262144 % 8 = a by omega,
      show (((a * 64 + k) * 64 + l) * 64 + m) / 4096 % 64 = k by omega,
      show (((a * 64 + k) * 64 + l) * 64 + m) / 64 % 64 = l by omega,
      show (((a * 64 + k) * 64 + l) * 64 + m) % 64 = m by omega]

theorem exists_sequence (c : Char) : ∃ u, Sequence c u := by
  have hvalid : c.toNat.isValidChar := c.valid
  have hc : Char.ofNat c.toNat = c := Char.ofNat_toNat c
  unfold Nat.isValidChar at hvalid
  generalize c.toNat = v at hvalid hc
  subst hc
  -- By the length of the sequence. That no surrogate is a character is used for three bytes.
  by_cases h₁ : v < 128
  · exact ⟨_, .one h₁⟩
  by_cases h₂ : v < 2048
  · rw [show v = v / 64 * 64 + v % 64 by omega]
    exact ⟨_, .two (by omega) (by omega) (by omega)⟩
  by_cases h₃ : v < 65536
  · rw [show v = (v / 4096 * 64 + v / 64 % 64) * 64 + v % 64 by omega]
    exact ⟨_, .three (by omega) (by omega) (by omega) (by omega) (by omega)⟩
  · rw [show v = ((v / 262144 * 64 + v / 4096 % 64) * 64 + v / 64 % 64) * 64 + v % 64 by omega]
    exact ⟨_, .four (by omega) (by omega) (by omega) (by omega) (by omega) (by omega)⟩

theorem sequence_iff {c : Char} {u : List UInt8} :
    Sequence c u ↔ u = String.utf8EncodeChar c := by
  refine ⟨Sequence.eq_encode, ?_⟩
  rintro rfl
  obtain ⟨u, hu⟩ := exists_sequence c
  rwa [← hu.eq_encode]

/-! ## Decoding -/

section

variable {done : List Char} {start : Nat} {b : UInt8} {bs : List UInt8} {p q : Partial}

theorem decodeFrom_begin (h : begin? b = some p) (hp : p.missing ≠ 0) :
    decodeFrom done start none (b :: bs) = decodeFrom done start (some p) bs := by
  rw [decodeFrom, h]
  simp only [if_neg hp]

theorem decodeFrom_extend (h : p.extend? b = some q) (hq : q.missing ≠ 0) :
    decodeFrom done start (some p) (b :: bs) = decodeFrom done start (some q) bs := by
  rw [decodeFrom, h]
  simp only [if_neg hq]

theorem decodeFrom_complete (h : p.extend? b = some q) (hq : q.missing = 0) :
    decodeFrom done start (some p) (b :: bs) =
      decodeFrom (Char.ofNat q.code :: done) (start + q.read) none bs := by
  rw [decodeFrom, h]
  simp only [if_pos hq]

end

theorem decodeFrom_sequence {c : Char} {u : List UInt8} (h : Sequence c u) (done : List Char)
    (start : Nat) (bs : List UInt8) :
    decodeFrom done start none (u ++ bs) = decodeFrom (c :: done) (start + u.length) none bs := by
  -- A byte behind the first two of a sequence can be any continuation.
  have hlow : ∀ k, (0x80 : UInt8).toNat ≤ k + 128 := fun k => Nat.le_add_left ..
  have hhigh : ∀ k < 64, k + 128 ≤ (0xbf : UInt8).toNat := fun k hk => by
    show k + 128 ≤ 191
    omega
  cases h with
  | one ha =>
    rw [List.cons_append, decodeFrom, begin?_one ha]
    rfl
  | two ha hk h₂ =>
    rw [List.cons_append, decodeFrom_begin (begin?_two ha h₂) (Nat.succ_ne_zero 0),
      List.cons_append, decodeFrom_complete (extend?_tail hk (hlow _) (hhigh _ hk)) rfl]
    rfl
  | @three a k l ha hk hl h₃ hs =>
    have hk₁ : (lead₃ a).low.toNat ≤ k + 128 :=
      low_le fun h => by have := h₃ h; show 160 ≤ k + 128; omega
    have hk₂ : k + 128 ≤ (lead₃ a).high.toNat :=
      le_high hk fun h => by have := hs h; show k + 128 ≤ 159; omega
    rw [List.cons_append, decodeFrom_begin (begin?_three ha) (Nat.succ_ne_zero 1),
      List.cons_append, decodeFrom_extend (extend?_tail hk hk₁ hk₂) (Nat.succ_ne_zero 0),
      List.cons_append, decodeFrom_complete (extend?_tail hl (hlow _) (hhigh _ hl)) rfl]
    rfl
  | @four a k l m ha hk hl hm h₄ hs =>
    have hk₁ : (lead₄ a).low.toNat ≤ k + 128 :=
      low_le fun h => by have := h₄ h; show 144 ≤ k + 128; omega
    have hk₂ : k + 128 ≤ (lead₄ a).high.toNat :=
      le_high hk fun h => by have := hs h; show k + 128 ≤ 143; omega
    rw [List.cons_append, decodeFrom_begin (begin?_four ha) (Nat.succ_ne_zero 2),
      List.cons_append, decodeFrom_extend (extend?_tail hk hk₁ hk₂) (Nat.succ_ne_zero 1),
      List.cons_append,
      decodeFrom_extend (extend?_tail (p := (lead₄ a).push k) hl (hlow _) (hhigh _ hl))
        (Nat.succ_ne_zero 0),
      List.cons_append, decodeFrom_complete (extend?_tail hm (hlow _) (hhigh _ hm)) rfl]
    rfl

theorem exists_tail_of_ok {done text : List Char} {start : Nat} {p : Partial} {bs : List UInt8}
    (hp : p.Confined) (h : decodeFrom done start (some p) bs = .ok text) :
    ∃ k rest, k < 64 ∧ bs = UInt8.ofNat (k + 128) :: rest ∧ p.low.toNat ≤ k + 128 ∧
      k + 128 ≤ p.high.toNat ∧
      ((p.push k).missing ≠ 0 → decodeFrom done start (some (p.push k)) rest = .ok text) := by
  cases bs with
  | nil => cases h
  | cons b rest =>
    cases hb : p.extend? b with
    | none =>
      rw [decodeFrom, hb] at h
      cases h
    | some q =>
      obtain ⟨k, hk, rfl, rfl, hlow, hhigh⟩ := exists_tail_of_extend? hp hb
      exact ⟨k, rest, hk, rfl, hlow, hhigh, fun hq => by rwa [decodeFrom_extend hb hq] at h⟩

theorem exists_sequence_of_ok {done text : List Char} {start : Nat} {b : UInt8} {bs : List UInt8}
    (h : decodeFrom done start none (b :: bs) = .ok text) :
    ∃ c u rest, b :: bs = u ++ rest ∧ Sequence c u := by
  cases hb : begin? b with
  | none =>
    rw [decodeFrom, hb] at h
    cases h
  | some p =>
    rcases begin?_cases hb with ⟨a, ha, rfl⟩ | ⟨a, ha, h₂, rfl⟩ | ⟨a, ha, rfl⟩ | ⟨a, ha, rfl⟩
    · exact ⟨_, _, bs, rfl, .one ha⟩
    · rw [decodeFrom_begin (begin?_two ha h₂) (Nat.succ_ne_zero 0)] at h
      obtain ⟨k, bs, hk, rfl, -⟩ := exists_tail_of_ok (confined_lead₂ a) h
      exact ⟨_, _, bs, rfl, .two ha hk h₂⟩
    · rw [decodeFrom_begin (begin?_three ha) (Nat.succ_ne_zero 1)] at h
      -- Only the second byte is confined further, which rules out overlong codes and surrogates.
      obtain ⟨k, bs, hk, rfl, hlow, hhigh, h⟩ := exists_tail_of_ok (confined_lead₃ a) h
      obtain ⟨l, bs, hl, rfl, -⟩ := exists_tail_of_ok (confined_push _ k) (h (Nat.succ_ne_zero 0))
      refine ⟨_, _, bs, rfl, .three ha hk hl ?_ ?_⟩
      · rintro rfl
        have : 160 ≤ k + 128 := hlow
        omega
      · rintro rfl
        have : k + 128 ≤ 159 := hhigh
        omega
    · rw [decodeFrom_begin (begin?_four ha) (Nat.succ_ne_zero 2)] at h
      obtain ⟨k, bs, hk, rfl, hlow, hhigh, h⟩ := exists_tail_of_ok (confined_lead₄ a) h
      obtain ⟨l, bs, hl, rfl, -, -, h⟩ :=
        exists_tail_of_ok (confined_push _ k) (h (Nat.succ_ne_zero 1))
      obtain ⟨m, bs, hm, rfl, -⟩ := exists_tail_of_ok (confined_push _ l) (h (Nat.succ_ne_zero 0))
      refine ⟨_, _, bs, rfl, .four ha hk hl hm ?_ ?_⟩
      · rintro rfl
        have : 144 ≤ k + 128 := hlow
        omega
      · rintro rfl
        have : k + 128 ≤ 143 := hhigh
        omega

/-! ## Texts -/

theorem decodeFrom_encode (text done : List Char) (start : Nat) :
    decodeFrom done start none (text.flatMap String.utf8EncodeChar) =
      .ok (done.reverse ++ text) := by
  induction text generalizing done start with
  | nil =>
    rw [List.append_nil]
    rfl
  | cons c text ih =>
    rw [List.flatMap_cons, decodeFrom_sequence (sequence_iff.mpr rfl), ih, List.reverse_cons,
      List.append_assoc]
    rfl

theorem Sequence.ne_nil {c : Char} {u : List UInt8} (h : Sequence c u) : u ≠ [] := by
  cases h <;> exact List.cons_ne_nil _ _

theorem exists_encode_of_ok {done text : List Char} {start : Nat} {bytes : List UInt8}
    (h : decodeFrom done start none bytes = .ok text) :
    ∃ more : List Char, bytes = more.flatMap String.utf8EncodeChar := by
  cases bytes with
  | nil => exact ⟨[], rfl⟩
  | cons b bs =>
    obtain ⟨c, u, rest, hu, hc⟩ := exists_sequence_of_ok h
    have hlength : rest.length < (b :: bs).length := by
      rw [hu, List.length_append]
      have := List.length_pos_iff.mpr hc.ne_nil
      omega
    rw [hu, decodeFrom_sequence hc] at h
    obtain ⟨more, rfl⟩ := exists_encode_of_ok h
    exact ⟨c :: more, by rw [hu, sequence_iff.mp hc, List.flatMap_cons]⟩
termination_by bytes.length

theorem decode_eq_ok_iff {bytes : List UInt8} {text : List Char} :
    decode bytes = .ok text ↔ bytes = text.flatMap String.utf8EncodeChar := by
  refine ⟨fun h => ?_, ?_⟩
  · obtain ⟨more, rfl⟩ := exists_encode_of_ok h
    rw [decode, decodeFrom_encode] at h
    rw [← Except.ok.inj h]
    rfl
  · rintro rfl
    exact decodeFrom_encode text [] 0

/-! ## Strings -/

theorem toList_loop (bytes : ByteArray) (i : Nat) (r : List UInt8) :
    ByteArray.toList.loop bytes i r = r.reverse ++ bytes.data.toList.drop i := by
  rw [ByteArray.toList.loop]
  by_cases hi : i < bytes.size
  · have hdata : i < bytes.data.toList.length := hi
    rw [if_pos hi, toList_loop bytes (i + 1), List.drop_eq_getElem_cons hdata, List.reverse_cons,
      List.append_assoc]
    simp [ByteArray.get!, getElem!_pos, hi]
  · rw [if_neg hi, List.drop_of_length_le (by simpa using hi), List.append_nil]
termination_by bytes.size - i

/-- The bytes of a string are the encodings of its characters. -/
theorem toList_toUTF8 (s : String) :
    s.toUTF8.toList = s.toList.flatMap String.utf8EncodeChar := by
  have hbytes : s.toUTF8 = (s.toList.flatMap String.utf8EncodeChar).toByteArray := by
    rw [String.toUTF8_eq_toByteArray, ← String.ofList_toList (s := s), String.toByteArray_ofList,
      String.toList_ofList]
    rfl
  rw [hbytes, ByteArray.toList, toList_loop, List.reverse_nil, List.nil_append, List.drop_zero,
    List.toList_data_toByteArray]

theorem decode_eq_ok_iff_toUTF8 {bytes : List UInt8} {text : List Char} :
    decode bytes = .ok text ↔ bytes = (String.ofList text).toUTF8.toList := by
  rw [decode_eq_ok_iff, toList_toUTF8, String.toList_ofList]

end JackCompiler.Utf8
