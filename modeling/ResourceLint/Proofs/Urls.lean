/-
Reading encoded addresses.

A byte is encoded as itself, as a plus sign or by two digits, and which of
these it was can be told from the first character (`decodeBytes_encodeByte`).
So what is encoded is read back, texts that differ have different addresses,
and no slash is in an address that is not between its parts.
-/
import ResourceLint.Report.UrlMap

namespace ResourceLint

/-- The value of a digit below sixteen, in capitals. -/
def hexValue (c : Char) : Nat := if c.toNat < 58 then c.toNat - 48 else c.toNat - 55

/-- The bytes that an address stands for. -/
def decodeBytes : List Char → List UInt8
  | '%' :: high :: low :: rest => .ofNat (16 * hexValue high + hexValue low) :: decodeBytes rest
  | '+' :: rest => 32 :: decodeBytes rest
  | c :: rest => .ofNat c.toNat :: decodeBytes rest
  | [] => []

/-- The text that an address stands for. -/
def decodeUrl? (s : String) : Option String := String.fromUTF8? ⟨(decodeBytes s.toList).toArray⟩

/-- A byte that stands for itself is none of the signs. -/
theorem char_of_isPlainByte {b : UInt8} (h : isPlainByte b) :
    Char.ofNat b.toNat ≠ '%' ∧ Char.ofNat b.toNat ≠ '+' ∧ Char.ofNat b.toNat ≠ '/'
      ∧ (Char.ofNat b.toNat).toNat = b.toNat := by
  have hall : ∀ n : Fin 256, isPlainByte (.ofNat n) →
      Char.ofNat n ≠ '%' ∧ Char.ofNat n ≠ '+' ∧ Char.ofNat n ≠ '/' ∧ (Char.ofNat n).toNat = n := by
    decide +kernel
  exact hall ⟨b.toNat, b.toNat_lt⟩ (by simpa using h)

theorem hexValue_hexDigit {n : Nat} (h : n < 16) : hexValue (hexDigit n) = n := by
  have hall : ∀ n : Fin 16, hexValue (hexDigit n) = n := by decide
  exact hall ⟨n, h⟩

theorem hexDigit_ne_slash {n : Nat} (h : n < 16) : hexDigit n ≠ '/' := by
  have hall : ∀ n : Fin 16, hexDigit n ≠ '/' := by decide
  exact hall ⟨n, h⟩

/-- A byte is read back, whatever comes after it. -/
theorem decodeBytes_encodeByte (b : UInt8) (rest : List Char) :
    decodeBytes (encodeByte b ++ rest) = b :: decodeBytes rest := by
  unfold encodeByte
  split
  · next hplain =>
      obtain ⟨hpercent, hplus, -, hval⟩ := char_of_isPlainByte hplain
      rw [List.singleton_append, decodeBytes, hval, UInt8.ofNat_toNat]
      · exact fun _ _ _ heq => absurd heq hpercent
      · exact fun heq => absurd heq hplus
  · split
    · next hspace =>
        obtain rfl : b = 32 := by simpa using hspace
        rfl
    · have hlt : b.toNat < 256 := b.toNat_lt
      have hsum : 16 * (b.toNat / 16) + b.toNat % 16 = b.toNat := Nat.div_add_mod _ _
      rw [List.cons_append, List.cons_append, List.singleton_append, decodeBytes,
        hexValue_hexDigit (by omega), hexValue_hexDigit (by omega), hsum, UInt8.ofNat_toNat]

theorem decodeBytes_flatMap (bytes : List UInt8) : decodeBytes (bytes.flatMap encodeByte) = bytes := by
  induction bytes with
  | nil => rfl
  | cons b bytes ih => rw [List.flatMap_cons, decodeBytes_encodeByte, ih]

/-- Listing bytes goes through them one by one. -/
theorem toList_loop_eq (bytes : ByteArray) (i : Nat) (listed : List UInt8) :
    ByteArray.toList.loop bytes i listed = listed.reverse ++ bytes.data.toList.drop i := by
  fun_induction ByteArray.toList.loop bytes i listed with
  | case1 i listed hlt ih =>
      have hi : i < bytes.data.toList.length := hlt
      have hget : bytes.get! i = bytes.data.toList[i] := getElem!_pos bytes.data i hlt
      rw [ih, List.drop_eq_getElem_cons hi, hget, List.reverse_cons, List.append_assoc,
        List.singleton_append]
  | case2 i listed hge =>
      have hlength : bytes.data.toList.length ≤ i := Nat.le_of_not_lt hge
      rw [List.drop_eq_nil_of_le hlength, List.append_nil]

theorem toList_eq_data (bytes : ByteArray) : bytes.toList = bytes.data.toList := by
  rw [ByteArray.toList, toList_loop_eq]
  rfl

/-- What is encoded is read back. -/
theorem decodeUrl?_encodeUrl (s : String) : decodeUrl? (encodeUrl s) = some s := by
  have hbytes : (⟨s.toUTF8.toList.toArray⟩ : ByteArray) = s.toUTF8 := by rw [toList_eq_data]
  unfold decodeUrl? encodeUrl
  rw [String.toList_ofList, decodeBytes_flatMap, hbytes]
  exact dif_pos s.isValidUTF8

theorem encodeUrl_injective {a b : String} (h : encodeUrl a = encodeUrl b) : a = b := by
  have hread := decodeUrl?_encodeUrl a
  rw [h, decodeUrl?_encodeUrl] at hread
  exact (Option.some.inj hread).symm

theorem slash_not_mem_encodeUrl (s : String) : '/' ∉ (encodeUrl s).toList := by
  unfold encodeUrl
  rw [String.toList_ofList, List.mem_flatMap]
  rintro ⟨b, -, hmem⟩
  unfold encodeByte at hmem
  split at hmem
  · next hplain =>
      exact (char_of_isPlainByte hplain).2.2.1 (List.mem_singleton.mp hmem).symm
  · split at hmem
    · cases List.mem_singleton.mp hmem
    · have hlt : b.toNat < 256 := b.toNat_lt
      rcases List.mem_cons.mp hmem with heq | hmem
      · cases heq
      · rcases List.mem_cons.mp hmem with heq | hmem
        · exact hexDigit_ne_slash (by omega) heq.symm
        · exact hexDigit_ne_slash (by omega) (List.mem_singleton.mp hmem).symm

end ResourceLint
