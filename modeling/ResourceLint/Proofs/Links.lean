/-
Where the link to a path leads.

A map lists beginnings of paths, each with an address (`Lists`).  Beginnings
and paths are compared as they are encoded, and what is left of the encoded
path is cut out of it and gets its slashes back.  Read without the encoding:
the first beginning that the path has is replaced by its address, and the
rest is written byte by byte (`entryUrl?_encodeUrl`, `urlFor?_of_parse`).

# Encoded beginnings

What is encoded for a byte can be told from its first character, so an
encoded beginning ends between two bytes of the path
(`flatMap_encodeByte_append_eq_iff`), and as both are whole texts, it ends
between two characters (`toUTF8_append_eq_iff`).

# Slashes

The three characters that stand for a slash are found by going through the
text.  A percent sign is only where a byte begins, so they are found at these
bytes and nowhere else (`plainSlashes_flatMap`).
-/
import Mathlib.Data.List.Forall2
import ResourceLint.Proofs.Entries
import ResourceLint.Proofs.Urls

namespace ResourceLint

variable {lead rest : String} {bytes more : List UInt8}

-- ========================================================== encoded beginnings

/-- Every byte is written as something. -/
theorem encodeByte_ne_nil (b : UInt8) : encodeByte b ≠ [] := by
  unfold encodeByte
  split
  · exact List.cons_ne_nil _ _
  · split <;> exact List.cons_ne_nil _ _

/-- An encoded text begins with another one where its bytes begin with those
of the other. -/
theorem flatMap_encodeByte_append_eq_iff {front : List UInt8} {tail : List Char} :
    front.flatMap encodeByte ++ tail = bytes.flatMap encodeByte
      ↔ ∃ more, bytes = front ++ more ∧ tail = more.flatMap encodeByte := by
  constructor
  · intro h
    induction front generalizing bytes with
    | nil => exact ⟨bytes, rfl, h⟩
    | cons b front ih =>
        cases bytes with
        | nil =>
            rw [List.flatMap_cons, List.flatMap_nil, List.append_assoc] at h
            exact absurd (List.append_eq_nil_iff.mp h).1 (encodeByte_ne_nil b)
        | cons d bytes =>
            rw [List.flatMap_cons, List.flatMap_cons, List.append_assoc] at h
            -- read back, both begin with the same byte
            have hread := congrArg decodeBytes h
            rw [decodeBytes_encodeByte, decodeBytes_encodeByte] at hread
            obtain rfl := (List.cons.inj hread).1
            obtain ⟨more, rfl, htail⟩ := ih (List.append_cancel_left h)
            exact ⟨more, rfl, htail⟩
  · rintro ⟨more, rfl, rfl⟩
    rw [List.flatMap_append]

/-- The bytes of a text are told part by part. -/
theorem toUTF8_toList_append (s t : String) :
    (s ++ t).toUTF8.toList = s.toUTF8.toList ++ t.toUTF8.toList := by
  rw [toList_eq_data, toList_eq_data, toList_eq_data, String.toUTF8_eq_toByteArray,
    String.toUTF8_eq_toByteArray, String.toUTF8_eq_toByteArray, String.toByteArray_append,
    ByteArray.data_append, Array.toList_append]

/-- A text whose bytes begin with those of another one begins with it. -/
theorem toUTF8_append_eq_iff {path : String} :
    path.toUTF8.toList = lead.toUTF8.toList ++ more
      ↔ ∃ rest, path = lead ++ rest ∧ more = rest.toUTF8.toList := by
  constructor
  · intro h
    have hbytes : lead.toList.utf8Encode ++ ⟨more.toArray⟩ = path.toList.utf8Encode := by
      rw [String.utf8Encode_toList, String.utf8Encode_toList]
      refine ByteArray.ext (Array.toList_inj.mp ?_)
      rw [toList_eq_data, toList_eq_data] at h
      rw [ByteArray.data_append, Array.toList_append, ← String.toUTF8_eq_toByteArray,
        ← String.toUTF8_eq_toByteArray, h]
    obtain ⟨rest, hrest⟩ := List.isPrefix_of_utf8Encode_append_eq_utf8Encode _ hbytes
    have hpath : path = lead ++ String.ofList rest := by
      rw [← String.toList_inj, String.toList_append, String.toList_ofList, hrest]
    refine ⟨String.ofList rest, hpath, ?_⟩
    rw [hpath, toUTF8_toList_append] at h
    exact (List.append_cancel_left h).symm
  · rintro ⟨rest, rfl, rfl⟩
    exact toUTF8_toList_append lead rest

-- ===================================================================== slashes

/-- How a byte is written in a link. -/
def linkByte (b : UInt8) : List Char := if b = 47 then ['/'] else encodeByte b

/-- The text that is written for a path in a link. -/
def linkText (s : String) : String := String.ofList (s.toUTF8.toList.flatMap linkByte)

/-- A character that begins no escape stays. -/
theorem plainSlashes_cons {c : Char} (hc : c ≠ '%') (tail : List Char) :
    plainSlashes (c :: tail) = c :: plainSlashes tail :=
  plainSlashes.eq_2 c tail fun _ heq => absurd heq hc

/-- No digit looks like the beginning of an escape. -/
theorem hexDigit_ne_percent {n : Nat} (h : n < 16) : hexDigit n ≠ '%' := by
  have hall : ∀ n : Fin 16, hexDigit n ≠ '%' := by decide
  exact hall ⟨n, h⟩

/-- Two digits that stand for a byte which is no slash are not those of one. -/
theorem eq_slash_of_hexDigits {b : UInt8} (hhigh : hexDigit (b.toNat / 16) = '2')
    (hlow : hexDigit (b.toNat % 16) = 'F') : b = 47 := by
  have hlt : b.toNat < 256 := b.toNat_lt
  have hdiv := hexValue_hexDigit (n := b.toNat / 16) (by omega)
  have hmod := hexValue_hexDigit (n := b.toNat % 16) (by omega)
  rw [hhigh] at hdiv
  rw [hlow] at hmod
  have hvalue : b.toNat = 47 := by
    have htwo : hexValue '2' = 2 := rfl
    have hfifteen : hexValue 'F' = 15 := rfl
    omega
  exact UInt8.toNat_inj.mp hvalue

/-- A slash is written as itself, and what is encoded for any other byte
stays. -/
theorem plainSlashes_encodeByte (b : UInt8) (tail : List Char) :
    plainSlashes (encodeByte b ++ tail) = linkByte b ++ plainSlashes tail := by
  unfold linkByte
  by_cases hslash : b = 47
  · subst hslash
    rfl
  · rw [if_neg hslash]
    unfold encodeByte
    split
    · next hplain =>
        rw [List.singleton_append, plainSlashes_cons (char_of_isPlainByte hplain).1]
        rfl
    · split
      · rfl
      · have hlt : b.toNat < 256 := b.toNat_lt
        -- the percent sign is passed over, and so are the digits, which are not those
        -- of a slash
        have hcoded : ∀ rest, hexDigit (b.toNat / 16) :: hexDigit (b.toNat % 16) :: tail
            ≠ '2' :: 'F' :: rest := fun rest heq => by
          obtain ⟨hhigh, heq⟩ := List.cons.inj heq
          exact hslash (eq_slash_of_hexDigits hhigh (List.cons.inj heq).1)
        rw [List.cons_append, List.cons_append, List.singleton_append,
          plainSlashes.eq_2 _ _ fun rest _ => hcoded rest,
          plainSlashes_cons (hexDigit_ne_percent (by omega)),
          plainSlashes_cons (hexDigit_ne_percent (by omega))]
        rfl

/-- Slashes are written plain byte by byte. -/
theorem plainSlashes_flatMap (bytes : List UInt8) :
    plainSlashes (bytes.flatMap encodeByte) = bytes.flatMap linkByte := by
  induction bytes with
  | nil => rfl
  | cons b bytes ih => rw [List.flatMap_cons, plainSlashes_encodeByte, ih, List.flatMap_cons]

/-- The bytes of a link are read back. -/
theorem decodeBytes_flatMap_linkByte (bytes : List UInt8) :
    decodeBytes (bytes.flatMap linkByte) = bytes := by
  induction bytes with
  | nil => rfl
  | cons b bytes ih =>
      rw [List.flatMap_cons]
      by_cases hslash : b = 47
      · subst hslash
        exact congrArg (47 :: ·) ih
      · rw [linkByte, if_neg hslash, decodeBytes_encodeByte, ih]

/-- The text of a link is decoded to what it was made from. -/
theorem decodeUrl?_linkText (s : String) : decodeUrl? (linkText s) = some s := by
  unfold decodeUrl? linkText
  rw [String.toList_ofList, decodeBytes_flatMap_linkByte, toList_eq_data]
  exact dif_pos s.isValidUTF8

/-- What may stand for a byte in a link: a slash as itself, another plain byte as
its character, a space as a plus sign, and any other byte as two digits behind a
percent sign. -/
inductive Writes : UInt8 → List Char → Prop
  | slash : Writes 47 ['/']
  | plain {b : UInt8} (h : isPlainByte b) : Writes b [Char.ofNat b.toNat]
  | space : Writes 32 ['+']
  | coded {b : UInt8} (hplain : ¬ isPlainByte b) (hslash : b ≠ 47) (hspace : b ≠ 32) :
      Writes b ['%', hexDigit (b.toNat / 16), hexDigit (b.toNat % 16)]

theorem writes_linkByte (b : UInt8) : Writes b (linkByte b) := by
  unfold linkByte
  by_cases hslash : b = 47
  · subst hslash
    exact .slash
  · rw [if_neg hslash]
    unfold encodeByte
    split
    · next hplain => exact .plain hplain
    · next hplain =>
        split
        · next hspace =>
            obtain rfl : b = 32 := by simpa using hspace
            exact .space
        · next hspace => exact .coded hplain hslash (by simpa using hspace)

/-- A slash stands for a slash only. -/
theorem Writes.slash_mem_iff {b : UInt8} {piece : List Char} (h : Writes b piece) :
    '/' ∈ piece ↔ b = 47 := by
  cases h with
  | slash => exact iff_of_true List.mem_cons_self rfl
  | plain hplain =>
      have hslash : b ≠ 47 := fun heq => by
        subst heq
        cases hplain
      refine iff_of_false (fun hmem => ?_) hslash
      exact (char_of_isPlainByte hplain).2.2.1 (List.mem_singleton.mp hmem).symm
  | space => exact iff_of_false (by decide) (by decide)
  | coded hplain hslash hspace =>
      have hlt : b.toNat < 256 := b.toNat_lt
      refine iff_of_false (fun hmem => ?_) hslash
      rcases List.mem_cons.mp hmem with heq | hmem
      · cases heq
      · rcases List.mem_cons.mp hmem with heq | hmem
        · exact hexDigit_ne_slash (by omega) heq.symm
        · exact hexDigit_ne_slash (by omega) (List.mem_singleton.mp hmem).symm

/-- A text that is written for the rest of a path: it is read back as this, and
consists of pieces that stand for the bytes of it one by one, with slashes where
these are and everything else encoded. -/
structure Spells (rest link : String) : Prop where
  decodes : decodeUrl? link = some rest
  pieces : ∃ pieces : List (List Char), link.toList = pieces.flatten
    ∧ List.Forall₂ (fun b piece => Writes b piece ∧ ('/' ∈ piece ↔ b = 47))
      rest.toUTF8.toList pieces

/-- The text of a link spells the path it was made from. -/
theorem spells_linkText (rest : String) : Spells rest (linkText rest) where
  decodes := decodeUrl?_linkText rest
  pieces := by
    refine ⟨rest.toUTF8.toList.map linkByte, ?_, ?_⟩
    · rw [linkText, String.toList_ofList, List.flatMap_def]
    · rw [List.forall₂_map_right_iff, List.forall₂_same]
      exact fun b _ => ⟨writes_linkByte b, (writes_linkByte b).slash_mem_iff⟩

namespace UrlMap

-- ===================================================================== matching

variable {path : String}

/-- What stands behind a beginning is the rest of the text. -/
theorem after?_eq_some_iff : Text.after? lead path = some rest ↔ path = lead ++ rest := by
  unfold Text.after?
  rw [Option.map_eq_some_iff, ← String.toList_inj, String.toList_append]
  constructor
  · rintro ⟨tail, htail, rfl⟩
    rw [String.toList_ofList]
    exact Text.strip?_eq_some_iff.mp htail
  · exact fun h => ⟨rest.toList, Text.strip?_eq_some_iff.mpr h, String.ofList_toList⟩

/-- An encoded path begins with an encoded text where it begins with the text. -/
theorem after?_encodeUrl_eq_some_iff {tail : String} :
    Text.after? (encodeUrl lead) (encodeUrl path) = some tail
      ↔ ∃ rest, path = lead ++ rest ∧ tail = encodeUrl rest := by
  rw [after?_eq_some_iff, ← String.toList_inj, String.toList_append]
  unfold encodeUrl
  rw [String.toList_ofList, String.toList_ofList, eq_comm, flatMap_encodeByte_append_eq_iff]
  constructor
  · rintro ⟨more, hpath, htail⟩
    obtain ⟨rest, rfl, rfl⟩ := toUTF8_append_eq_iff.mp hpath
    exact ⟨rest, rfl, by rw [← htail, String.ofList_toList]⟩
  · rintro ⟨rest, rfl, rfl⟩
    exact ⟨rest.toUTF8.toList, toUTF8_toList_append lead rest, String.toList_ofList⟩

/-- An entry gives a path its address and what is written for the rest. -/
theorem entryUrl?_encodeUrl (path lead url : String) :
    entryUrl? path (encodeUrl lead, url)
      = (Text.after? lead path).map fun rest => url ++ linkText rest := by
  have hplain : ∀ rest, String.ofList (plainSlashes (encodeUrl rest).toList) = linkText rest := by
    intro rest
    rw [encodeUrl, String.toList_ofList, plainSlashes_flatMap]
    rfl
  ext address
  unfold entryUrl?
  rw [Option.map_eq_some_iff, Option.map_eq_some_iff]
  constructor
  · rintro ⟨tail, htail, rfl⟩
    obtain ⟨rest, hpath, rfl⟩ := after?_encodeUrl_eq_some_iff.mp htail
    exact ⟨rest, after?_eq_some_iff.mpr hpath, by rw [hplain]⟩
  · rintro ⟨rest, hrest, rfl⟩
    have hpath := after?_eq_some_iff.mp hrest
    exact ⟨encodeUrl rest, after?_encodeUrl_eq_some_iff.mpr ⟨rest, hpath, rfl⟩, by rw [hplain]⟩

-- ====================================================================== entries

/-- The entries that a text lists.  The word `none` lists none; otherwise an
entry stands between commas, a beginning of paths in front of its first equals
sign and the address behind it, and what is blank is no entry. -/
inductive Lists (spec : String) : List (String × String) → Prop
  | nothing (h : Text.trimmed spec = "none") : Lists spec []
  | entries (entries : List (String × String)) (hspec : Text.trimmed spec ≠ "none")
      (hparts : ((Text.split ',' (Text.trimmed spec)).map Text.trimmed).filter (· != "")
        = entries.map fun e => e.1 ++ "=" ++ e.2)
      (hequals : ∀ e ∈ entries, '=' ∉ e.1.toList) : Lists spec entries

/-- An accepted entry is a path, the first `=` and the address. -/
theorem exists_of_parseEntry {entry : String} {pair : String × String}
    (h : parseEntry entry = .ok pair) :
    ∃ lead url, entry = lead ++ "=" ++ url ∧ '=' ∉ lead.toList ∧ pair = (encodeUrl lead, url) := by
  unfold parseEntry Text.splitOnce? at h
  cases hcut : Text.cut? ['='] entry.toList with
  | none =>
      rw [hcut] at h
      cases h
  | some parts =>
      obtain ⟨before, after⟩ := parts
      rw [hcut] at h
      cases h
      obtain ⟨hentry, hequals⟩ := Text.cut?_eq_some_iff.mp hcut
      refine ⟨String.ofList before, String.ofList after, ?_, ?_, rfl⟩
      · rw [← String.toList_inj, hentry]
        simp
      · rwa [String.toList_ofList]

/-- An accepted list is made of such entries. -/
theorem exists_of_mapM_parseEntry {parts : List String} {pairs : List (String × String)}
    (h : parts.mapM parseEntry = .ok pairs) :
    ∃ entries : List (String × String), parts = entries.map (fun e => e.1 ++ "=" ++ e.2)
      ∧ (∀ e ∈ entries, '=' ∉ e.1.toList)
      ∧ pairs = entries.map fun e => (encodeUrl e.1, e.2) := by
  induction parts generalizing pairs with
  | nil =>
      cases h
      exact ⟨[], rfl, List.forall_mem_nil _, rfl⟩
  | cons part parts ih =>
      rw [List.mapM_cons] at h
      -- the first refusal ends the list
      cases hpart : parseEntry part with
      | error malformed =>
          rw [hpart] at h
          cases h
      | ok pair =>
          cases hparts : parts.mapM parseEntry with
          | error malformed =>
              rw [hpart, hparts] at h
              cases h
          | ok more =>
              rw [hpart, hparts] at h
              cases h
              obtain ⟨lead, url, rfl, hequals, rfl⟩ := exists_of_parseEntry hpart
              obtain ⟨entries, rfl, hrest, rfl⟩ := ih hparts
              exact ⟨(lead, url) :: entries, rfl, List.forall_mem_cons.mpr ⟨hequals, hrest⟩, rfl⟩

/-- A map that is read has the entries of the text, with their beginnings
encoded. -/
theorem exists_lists_of_parse {spec : String} {m : UrlMap} (h : parse spec = .ok m) :
    ∃ entries, Lists spec entries ∧ m.entries = entries.map fun e => (encodeUrl e.1, e.2) := by
  unfold parse at h
  by_cases hnone : Text.trimmed spec = "none"
  · rw [hnone] at h
    cases h
    exact ⟨[], .nothing hnone, rfl⟩
  · simp only [beq_iff_eq, hnone, if_false] at h
    cases hparts : (((Text.split ',' (Text.trimmed spec)).map Text.trimmed).filter
        (· != "")).mapM parseEntry with
    | error malformed =>
        rw [hparts] at h
        cases h
    | ok pairs =>
        rw [hparts] at h
        cases h
        obtain ⟨entries, hspec, hequals, rfl⟩ := exists_of_mapM_parseEntry hparts
        exact ⟨entries, .entries entries hnone hspec hequals, rfl⟩

/-- The address of a path, read without the encoding. -/
theorem urlFor?_eq {m : UrlMap} {entries : List (String × String)}
    (h : m.entries = entries.map fun e => (encodeUrl e.1, e.2)) (path : Path) :
    m.urlFor? path
      = entries.findSome? fun e =>
        (Text.after? e.1 path.text).map fun rest => e.2 ++ linkText rest := by
  unfold urlFor?
  rw [h, List.findSome?_map]
  congr 1
  funext e
  exact entryUrl?_encodeUrl path.text e.1 e.2

/-- A path goes on behind what it begins with. -/
theorem isSome_after?_iff : (Text.after? lead path).isSome ↔ lead.toList <+: path.toList := by
  rw [Option.isSome_iff_exists]
  constructor
  · rintro ⟨rest, hrest⟩
    exact ⟨rest.toList, by rw [after?_eq_some_iff.mp hrest, String.toList_append]⟩
  · rintro ⟨tail, htail⟩
    refine ⟨String.ofList tail, after?_eq_some_iff.mpr ?_⟩
    rw [← String.toList_inj, String.toList_append, String.toList_ofList, htail]

/-- A path has a link where it begins as some entry says.  The first such entry
is used: its address stands in place of the beginning, and what follows spells
the rest of the path.  Texts that differ are encoded differently. -/
theorem urlFor?_of_parse {spec : String} {m : UrlMap} (h : parse spec = .ok m) :
    (∃ entries, Lists spec entries ∧ ∀ path : Path,
        ((m.urlFor? path).isSome ↔ ∃ e ∈ entries, e.1.toList <+: path.text.toList)
        ∧ ∀ url, m.urlFor? path = some url →
          ∃ earlier e later rest link, entries = earlier ++ e :: later
            ∧ (∀ x ∈ earlier, ¬ x.1.toList <+: path.text.toList)
            ∧ path.text = e.1 ++ rest ∧ url = e.2 ++ link ∧ Spells rest link)
      ∧ Function.Injective encodeUrl := by
  refine ⟨?_, fun a b hab => encodeUrl_injective hab⟩
  obtain ⟨entries, hlists, hentries⟩ := exists_lists_of_parse h
  refine ⟨entries, hlists, fun path => ?_⟩
  rw [urlFor?_eq hentries]
  constructor
  · simp only [List.findSome?_isSome_iff, Option.isSome_map, isSome_after?_iff]
  · intro url hurl
    obtain ⟨earlier, e, later, rfl, he, hearlier⟩ := List.findSome?_eq_some_iff.mp hurl
    obtain ⟨rest, hrest, rfl⟩ := Option.map_eq_some_iff.mp he
    refine ⟨earlier, e, later, rest, linkText rest, rfl, fun x hx hlead => ?_,
      after?_eq_some_iff.mp hrest, rfl, spells_linkText rest⟩
    obtain ⟨other, hother⟩ := Option.isSome_iff_exists.mp (isSome_after?_iff.mpr hlead)
    have hnone := hearlier x hx
    rw [hother] at hnone
    cases hnone

/-- The second of two beginnings, and a rest with a space, a slash and a text that
looks like an encoded one. -/
theorem urlFor?_of_parse_overlapping :
    ∃ m entries, parse " /work/a=http://a/, /work=b=c " = .ok m
      ∧ Lists " /work/a=http://a/, /work=b=c " entries
      ∧ ∃ earlier e later rest link, entries = earlier ++ e :: later
        ∧ (∀ x ∈ earlier, ¬ x.1.toList <+: "/work/é %2F/x".toList)
        ∧ "/work/é %2F/x" = e.1 ++ rest ∧ "b=c/%C3%A9+%252F/x" = e.2 ++ link ∧ Spells rest link := by
  have hparse : parse " /work/a=http://a/, /work=b=c "
      = .ok ⟨[("%2Fwork%2Fa", "http://a/"), ("%2Fwork", "b=c")]⟩ := by decide +kernel
  have hurl : UrlMap.urlFor? ⟨[("%2Fwork%2Fa", "http://a/"), ("%2Fwork", "b=c")]⟩ ⟨"/work/é %2F/x"⟩
      = some "b=c/%C3%A9+%252F/x" := by decide +kernel
  obtain ⟨⟨entries, hlists, hlinks⟩, -⟩ := urlFor?_of_parse hparse
  exact ⟨_, entries, hparse, hlists, (hlinks _).2 _ hurl⟩

end UrlMap

end ResourceLint
