/-
Cutting a text at a mark, and measuring it in bytes.

`cut? mark` finds the first place where `mark` stands and gives what is
before and after it; what it gives, with the mark between, is the whole
text (`eq_append_of_cut?`).
-/
namespace ResourceLint.Text

/-- How many bytes the characters take in UTF-8. -/
def byteSize (cs : List Char) : Nat :=
  cs.foldr (fun c n => c.utf8Size + n) 0

@[simp] theorem byteSize_nil : byteSize [] = 0 := rfl

@[simp] theorem byteSize_cons (c : Char) (cs : List Char) :
    byteSize (c :: cs) = c.utf8Size + byteSize cs := rfl

@[simp] theorem byteSize_append (a b : List Char) :
    byteSize (a ++ b) = byteSize a + byteSize b := by
  induction a with
  | nil => simp
  | cons c a ih => simp [ih, Nat.add_assoc]

/-- What follows `lead`, in a text that begins with it. -/
def strip? : List Char → List Char → Option (List Char)
  | [], s => some s
  | _ :: _, [] => none
  | a :: lead, c :: s => if a = c then strip? lead s else none

theorem strip?_eq_some_iff {lead s rest : List Char} :
    strip? lead s = some rest ↔ s = lead ++ rest := by
  induction lead generalizing s with
  | nil => simp [strip?]
  | cons a lead ih =>
    cases s with
    | nil => simp [strip?]
    | cons c s =>
      simp only [strip?, List.cons_append, List.cons.injEq]
      split
      · rename_i h
        simp [ih, h]
      · rename_i h
        simp [Ne.symm h]

/-- The parts before and after the first place where the mark stands. -/
def cut? (mark : List Char) : List Char → Option (List Char × List Char)
  | [] => if mark.isEmpty then some ([], []) else none
  | c :: rest =>
    match strip? mark (c :: rest) with
    | some after => some ([], after)
    | none => (cut? mark rest).map fun (before, after) => (c :: before, after)

theorem eq_append_of_cut? {mark s before after : List Char}
    (h : cut? mark s = some (before, after)) : s = before ++ mark ++ after := by
  induction s generalizing before with
  | nil =>
    simp only [cut?] at h
    split at h
    · rename_i hm
      simp only [Option.some.injEq, Prod.mk.injEq] at h
      simp [← h.1, ← h.2, List.isEmpty_iff.mp hm]
    · cases h
  | cons c rest ih =>
    simp only [cut?] at h
    split at h
    · rename_i after' hm
      simp only [Option.some.injEq, Prod.mk.injEq] at h
      have := strip?_eq_some_iff.mp hm
      simp [← h.1, ← h.2, this]
    · obtain ⟨⟨b, a⟩, hb, hab⟩ := Option.map_eq_some_iff.mp h
      simp only [Prod.mk.injEq] at hab
      rw [@ih b (by rw [hb, hab.2])]
      simp [← hab.1]

/-- The parts of a text between the places where the mark stands; one
part more than there are marks. -/
def splitAt (mark : Char) : List Char → List (List Char)
  | [] => [[]]
  | c :: rest =>
    if c == mark then [] :: splitAt mark rest
    else
      match splitAt mark rest with
      | part :: parts => (c :: part) :: parts
      | [] => [[c]]

/-- The part before the last place where the mark stands, and the part
after it. -/
def cutLast? (mark : Char) (s : List Char) : Option (List Char × List Char) :=
  let after := (s.reverse.takeWhile (· != mark)).reverse
  match s.reverse.dropWhile (· != mark) with
  | [] => none
  | _ :: before => some (before.reverse, after)

/-- The string after `lead`, where it begins with it. -/
def after? (lead s : String) : Option String :=
  (strip? lead.toList s.toList).map String.ofList

/-- Whether the string ends with `tail`. -/
def endsWith (tail s : String) : Bool :=
  tail.toList.isSuffixOf s.toList

/-- The parts of a string between the places where the mark stands. -/
def split (mark : Char) (s : String) : List String :=
  (splitAt mark s.toList).map String.ofList

/-- The parts around the first place where the mark stands. -/
def splitOnce? (mark : Char) (s : String) : Option (String × String) :=
  (cut? [mark] s.toList).map fun (a, b) => (String.ofList a, String.ofList b)

/-- Pads on the left to the given width. -/
def padLeft (width : Nat) (s : String) : String :=
  String.ofList (List.replicate (width - s.length) ' ') ++ s

/-- Pads on the right to the given width. -/
def padRight (width : Nat) (s : String) : String :=
  s ++ String.ofList (List.replicate (width - s.length) ' ')

end ResourceLint.Text
