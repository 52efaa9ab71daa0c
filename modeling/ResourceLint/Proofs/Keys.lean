/-
Lists by key.

A key is found, or not, whatever the order of a list (`mem_insertKey`,
`lookup?_insert`).  Lists that are built by inserting have increasing keys,
and a list with increasing keys is its own normal form: entered key by key,
it comes out as it stands (`keySet_of_increasing`,
`foldl_insert_of_increasing`).  Where a value that is there is kept, the first
one that was entered is found (`lookup?_foldl_insertNew`).
-/
import Mathlib.Data.List.Basic
import Mathlib.Data.List.Induction
import ResourceLint.Assoc

namespace ResourceLint.Assoc

open Std (LawfulEqCmp OrientedCmp ReflCmp TransCmp)

variable {κ α : Type} {cmp : κ → κ → Ordering}

-- ================================================================= entries

section Entries

variable [LawfulEqCmp cmp] [DecidableEq κ]

theorem lookup?_cons (key other : κ) (value : α) (entries : List (κ × α)) :
    lookup? cmp other ((key, value) :: entries)
      = if other = key then some value else lookup? cmp other entries := by
  have hsame : (cmp other key == .eq) = decide (other = key) := by
    rw [Bool.eq_iff_iff, beq_iff_eq, decide_eq_true_iff, LawfulEqCmp.compare_eq_iff_eq]
  rw [lookup?, hsame]
  simp only [decide_eq_true_eq]

/-- What is looked up is the value that was inserted, or what was there. -/
theorem lookup?_insert (key other : κ) (value : α) (entries : List (κ × α)) :
    lookup? cmp other (insert cmp key value entries)
      = if other = key then some value else lookup? cmp other entries := by
  induction entries with
  | nil => exact lookup?_cons ..
  | cons first entries ih =>
      obtain ⟨k, old⟩ := first
      unfold insert
      cases hcmp : cmp key k with
      | lt => exact lookup?_cons ..
      | eq =>
          obtain rfl : key = k := LawfulEqCmp.eq_of_compare hcmp
          simp only [lookup?_cons]
          split <;> rfl
      | gt =>
          have hne : k ≠ key := by
            rintro rfl
            rw [@ReflCmp.compare_self _ cmp] at hcmp
            cases hcmp
          simp only [lookup?_cons, ih]
          split
          · next heq => rw [if_neg (heq ▸ hne)]
          · rfl

/-- Entries that are left out are no longer found, and all others are. -/
theorem lookup?_filter_ne [BEq κ] [LawfulBEq κ] (key other : κ) (entries : List (κ × α)) :
    lookup? cmp other (entries.filter (·.1 != key))
      = if other = key then none else lookup? cmp other entries := by
  induction entries with
  | nil => simp [lookup?]
  | cons first entries ih =>
      obtain ⟨k, value⟩ := first
      rw [lookup?_cons]
      by_cases hk : k = key
      · rw [List.filter_cons_of_neg (by simpa using hk), ih, hk]
        split <;> rfl
      · rw [List.filter_cons_of_pos (by simpa using hk), lookup?_cons, ih]
        split
        · next heq => rw [if_neg (heq ▸ hk)]
        · rfl

/-- Keys that compare equal are equal, so it does not matter how they are
compared. -/
theorem lookup_eq_lookup? [BEq κ] [LawfulBEq κ] (key : κ) (entries : List (κ × α)) :
    entries.lookup key = lookup? cmp key entries := by
  induction entries with
  | nil => rfl
  | cons first entries ih =>
      obtain ⟨k, value⟩ := first
      rw [lookup?_cons, List.lookup_cons, ih]
      by_cases hk : key = k
      · rw [if_pos hk, beq_iff_eq.mpr hk]
      · rw [if_neg hk, beq_eq_false_iff_ne.mpr hk]

end Entries

-- ==================================================================== keys

section Keys

variable [LawfulEqCmp cmp] {key k : κ} {keys : List κ}

theorem mem_insertKey : k ∈ insertKey cmp key keys ↔ k = key ∨ k ∈ keys := by
  induction keys with
  | nil => simp [insertKey]
  | cons first keys ih =>
      unfold insertKey
      cases hcmp : cmp key first with
      | lt => exact List.mem_cons
      | eq =>
          obtain rfl : key = first := LawfulEqCmp.eq_of_compare hcmp
          exact ⟨Or.inr, fun h => h.elim (fun heq => heq ▸ List.mem_cons_self) id⟩
      | gt => simp only [List.mem_cons, ih, or_left_comm]

/-- A key set has the keys that it was made of. -/
theorem mem_keySet : k ∈ keySet cmp keys ↔ k ∈ keys := by
  have hfold : ∀ keys set : List κ,
      k ∈ keys.foldl (fun set key => insertKey cmp key set) set ↔ k ∈ set ∨ k ∈ keys := by
    intro keys
    induction keys with
    | nil => simp
    | cons first keys ih =>
        intro set
        rw [List.foldl_cons, ih, mem_insertKey, List.mem_cons, or_assoc, or_left_comm]
  exact (hfold keys []).trans (or_iff_right List.not_mem_nil)

end Keys

-- ========================================================= increasing keys

/-- Each key comes before those that follow. -/
def Increasing (cmp : κ → κ → Ordering) (keys : List κ) : Prop :=
  keys.Pairwise fun a b => cmp a b = .lt

variable {key : κ} {keys : List κ}

theorem increasing_nil : Increasing cmp [] := List.Pairwise.nil

theorem increasing_insertKey [LawfulEqCmp cmp] [TransCmp cmp] (h : Increasing cmp keys) :
    Increasing cmp (insertKey cmp key keys) := by
  induction keys with
  | nil => exact List.pairwise_singleton _ _
  | cons first keys ih =>
      obtain ⟨hfirst, hkeys⟩ := List.pairwise_cons.mp h
      unfold insertKey
      cases hcmp : cmp key first with
      | lt =>
          refine List.pairwise_cons.mpr ⟨fun k hk => ?_, h⟩
          rcases List.mem_cons.mp hk with rfl | hk
          · exact hcmp
          · exact TransCmp.lt_trans hcmp (hfirst k hk)
      | eq => exact h
      | gt =>
          refine List.pairwise_cons.mpr ⟨fun k hk => ?_, ih hkeys⟩
          rcases mem_insertKey.mp hk with rfl | hk
          · exact OrientedCmp.lt_of_gt hcmp
          · exact hfirst k hk

/-- A key set increases. -/
theorem increasing_keySet [LawfulEqCmp cmp] [TransCmp cmp] (keys : List κ) :
    Increasing cmp (keySet cmp keys) := by
  have hfold : ∀ keys set : List κ, Increasing cmp set →
      Increasing cmp (keys.foldl (fun set key => insertKey cmp key set) set) := by
    intro keys
    induction keys with
    | nil => exact fun _ h => h
    | cons first keys ih => exact fun set h => ih _ (increasing_insertKey h)
  exact hfold keys [] increasing_nil

/-- Increasing keys are different ones. -/
theorem Increasing.nodup [ReflCmp cmp] (h : Increasing cmp keys) : keys.Nodup := by
  refine h.imp fun {a b} hlt heq => ?_
  rw [heq, @ReflCmp.compare_self _ cmp] at hlt
  cases hlt

/-- Increasing keys are known by what is among them. -/
theorem Increasing.eq_of_mem_iff [TransCmp cmp] {others : List κ}
    (h : Increasing cmp keys) (h' : Increasing cmp others) (hmem : ∀ k, k ∈ keys ↔ k ∈ others) :
    keys = others := by
  have hperm : keys.Perm others := (List.perm_ext_iff_of_nodup h.nodup h'.nodup).mpr hmem
  refine hperm.eq_of_pairwise (fun a b _ _ hab hba => ?_) h h'
  rw [OrientedCmp.gt_of_lt hab] at hba
  cases hba

/-- A key behind all others is entered at the end. -/
theorem insertKey_eq_append [OrientedCmp cmp] (h : ∀ k ∈ keys, cmp k key = .lt) :
    insertKey cmp key keys = keys ++ [key] := by
  induction keys with
  | nil => rfl
  | cons first keys ih =>
      have hfirst := OrientedCmp.gt_of_lt (h first List.mem_cons_self)
      rw [insertKey, hfirst, List.cons_append, ← ih fun k hk => h k (List.mem_cons_of_mem _ hk)]

/-- Increasing keys are a key set as they stand. -/
theorem keySet_of_increasing [OrientedCmp cmp] (h : Increasing cmp keys) :
    keySet cmp keys = keys := by
  induction keys using List.reverseRecOn with
  | nil => rfl
  | append_singleton keys key ih =>
      obtain ⟨hkeys, -, hbelow⟩ := List.pairwise_append.mp h
      have hset : keySet cmp (keys ++ [key]) = insertKey cmp key (keySet cmp keys) :=
        List.foldl_concat ..
      rw [hset, ih hkeys]
      exact insertKey_eq_append fun k hk => hbelow k hk key (List.mem_singleton_self key)

/-- The keys of entries, when one is inserted. -/
theorem map_fst_insert [LawfulEqCmp cmp] (key : κ) (value : α) (entries : List (κ × α)) :
    (insert cmp key value entries).map (·.1) = insertKey cmp key (entries.map (·.1)) := by
  induction entries with
  | nil => rfl
  | cons first entries ih =>
      obtain ⟨k, old⟩ := first
      unfold insert
      rw [List.map_cons, insertKey]
      cases cmp key k with
      | lt => rfl
      | eq => rfl
      | gt => rw [List.map_cons, ih]

theorem insert_eq_append [OrientedCmp cmp] {value : α} {entries : List (κ × α)}
    (h : ∀ entry ∈ entries, cmp entry.1 key = .lt) :
    insert cmp key value entries = entries ++ [(key, value)] := by
  induction entries with
  | nil => rfl
  | cons first entries ih =>
      have hfirst := OrientedCmp.gt_of_lt (h first List.mem_cons_self)
      rw [insert, hfirst, List.cons_append,
        ← ih fun entry hentry => h entry (List.mem_cons_of_mem _ hentry)]

/-- Entries with increasing keys, inserted one by one, stand as they were. -/
theorem foldl_insert_of_increasing [OrientedCmp cmp] {entries : List (κ × α)}
    (h : Increasing cmp (entries.map (·.1))) :
    entries.foldl (fun all (key, value) => insert cmp key value all) [] = entries := by
  induction entries using List.reverseRecOn with
  | nil => rfl
  | append_singleton entries entry ih =>
      rw [List.map_append] at h
      obtain ⟨hentries, -, hbelow⟩ := List.pairwise_append.mp h
      rw [List.foldl_concat, ih hentries]
      refine insert_eq_append fun other hother => ?_
      exact hbelow other.1 (List.mem_map_of_mem hother) entry.1 (List.mem_singleton_self _)

/-- The keys of entries that are entered one by one, whatever becomes of the
values. -/
theorem map_fst_foldl {enter : κ → α → List (κ × α) → List (κ × α)}
    (henter : ∀ key value entries,
      (enter key value entries).map (·.1) = insertKey cmp key (entries.map (·.1)))
    (entries : List (κ × α)) :
    (entries.foldl (fun all (key, value) => enter key value all) []).map (·.1)
      = keySet cmp (entries.map (·.1)) := by
  induction entries using List.reverseRecOn with
  | nil => rfl
  | append_singleton entries entry ih =>
      have hset : keySet cmp (entries.map (·.1) ++ [entry.1])
          = insertKey cmp entry.1 (keySet cmp (entries.map (·.1))) := List.foldl_concat ..
      rw [List.foldl_concat, henter, ih, List.map_append]
      exact hset.symm

/-- The keys of entries that are inserted one by one. -/
theorem map_fst_foldl_insert [LawfulEqCmp cmp] (entries : List (κ × α)) :
    (entries.foldl (fun all (key, value) => insert cmp key value all) []).map (·.1)
      = keySet cmp (entries.map (·.1)) :=
  map_fst_foldl map_fst_insert entries

-- ===================================================== keys that stand for others

section Comap

variable {β : Type} (f : β → κ)

/-- Keys that are compared by what they stand for are looked up by that. -/
theorem lookup?_comap (key : β) (entries : List (β × α)) :
    lookup? (fun a b => cmp (f a) (f b)) key entries
      = lookup? cmp (f key) (entries.map (Prod.map f id)) := by
  induction entries with
  | nil => rfl
  | cons first entries ih =>
      rw [List.map_cons, lookup?, lookup?, ih]
      rfl

/-- So are they entered. -/
theorem map_insert_comap (key : β) (value : α) (entries : List (β × α)) :
    (insert (fun a b => cmp (f a) (f b)) key value entries).map (Prod.map f id)
      = insert cmp (f key) value (entries.map (Prod.map f id)) := by
  induction entries with
  | nil => rfl
  | cons first entries ih =>
      obtain ⟨k, old⟩ := first
      rw [List.map_cons]
      unfold insert
      simp only [Prod.map, id]
      cases cmp (f key) (f k) with
      | lt => rfl
      | eq => rfl
      | gt => exact congrArg ((f k, old) :: ·) ih

end Comap

/-- An entry is found under its key. -/
theorem lookup?_of_mem [LawfulEqCmp cmp] [DecidableEq κ] {value : α} {entries : List (κ × α)}
    (h : Increasing cmp (entries.map (·.1))) (hmem : (key, value) ∈ entries) :
    lookup? cmp key entries = some value := by
  induction entries with
  | nil => cases hmem
  | cons first entries ih =>
      obtain ⟨k, old⟩ := first
      obtain ⟨hfirst, hentries⟩ := List.pairwise_cons.mp h
      rw [lookup?_cons]
      rcases List.mem_cons.mp hmem with heq | hmem
      · obtain ⟨rfl, rfl⟩ := Prod.mk.inj heq
        rw [if_pos rfl]
      · have hlt := hfirst key (List.mem_map_of_mem hmem)
        have hne : key ≠ k := by
          rintro rfl
          rw [@ReflCmp.compare_self _ cmp] at hlt
          cases hlt
        rw [if_neg hne, ih hentries hmem]

/-- What is found is an entry. -/
theorem mem_of_lookup? [LawfulEqCmp cmp] [DecidableEq κ] {value : α} {entries : List (κ × α)}
    (h : lookup? cmp key entries = some value) : (key, value) ∈ entries := by
  induction entries with
  | nil => cases h
  | cons first entries ih =>
      obtain ⟨k, old⟩ := first
      rw [lookup?_cons] at h
      split at h
      · next heq =>
          rw [heq, Option.some.inj h]
          exact List.mem_cons_self
      · exact List.mem_cons_of_mem _ (ih h)

-- ========================================================= the first value counts

/-- The keys of entries, when one is inserted that keeps what is there. -/
theorem map_fst_insertNew (key : κ) (value : α) (entries : List (κ × α)) :
    (insertNew cmp key value entries).map (·.1) = insertKey cmp key (entries.map (·.1)) := by
  induction entries with
  | nil => rfl
  | cons first entries ih =>
      obtain ⟨k, old⟩ := first
      unfold insertNew
      rw [List.map_cons, insertKey]
      cases cmp key k with
      | lt => rfl
      | eq => rfl
      | gt => rw [List.map_cons, ih]

/-- Nothing is found under a key before all others. -/
theorem lookup?_of_lt [LawfulEqCmp cmp] [DecidableEq κ] {entries : List (κ × α)}
    (h : ∀ entry ∈ entries, cmp key entry.1 = .lt) : lookup? cmp key entries = none := by
  cases hlookup : lookup? cmp key entries with
  | none => rfl
  | some value =>
      have hlt := h _ (mem_of_lookup? hlookup)
      rw [@ReflCmp.compare_self _ cmp] at hlt
      cases hlt

variable [LawfulEqCmp cmp] [TransCmp cmp] [DecidableEq κ]

/-- What is looked up is what was there, or else the value that was inserted. -/
theorem lookup?_insertNew (other : κ) (value : α) {entries : List (κ × α)}
    (h : Increasing cmp (entries.map (·.1))) :
    lookup? cmp other (insertNew cmp key value entries)
      = (lookup? cmp other entries).or (if other = key then some value else none) := by
  induction entries with
  | nil => exact lookup?_cons ..
  | cons first entries ih =>
      obtain ⟨k, old⟩ := first
      obtain ⟨hfirst, hentries⟩ := List.pairwise_cons.mp h
      unfold insertNew
      -- the key belongs before the first entry, is its key, or belongs behind it
      cases hcmp : cmp key k with
      | lt =>
          dsimp only
          rw [lookup?_cons]
          split
          · next heq =>
              have hnone : lookup? cmp other ((k, old) :: entries) = none := by
                refine lookup?_of_lt fun entry hentry => ?_
                rw [heq]
                rcases List.mem_cons.mp hentry with rfl | hentry
                · exact hcmp
                · exact TransCmp.lt_trans hcmp (hfirst _ (List.mem_map_of_mem hentry))
              rw [hnone]
              rfl
          · exact (Option.or_none ..).symm
      | eq =>
          obtain rfl : key = k := LawfulEqCmp.eq_of_compare hcmp
          simp only [lookup?_cons]
          split
          · rfl
          · exact (Option.or_none ..).symm
      | gt =>
          simp only [lookup?_cons, ih hentries]
          split <;> rfl

/-- Of the values that are inserted under a key one by one, the first is found. -/
theorem lookup?_foldl_insertNew [BEq κ] [LawfulBEq κ] (key : κ) (entries : List (κ × α)) :
    lookup? cmp key (entries.foldl (fun all (key, value) => insertNew cmp key value all) [])
      = entries.lookup key := by
  induction entries using List.reverseRecOn with
  | nil => rfl
  | append_singleton entries entry ih =>
      have hincreasing : Increasing cmp
          ((entries.foldl (fun all (key, value) => insertNew cmp key value all) []).map (·.1)) := by
        rw [map_fst_foldl map_fst_insertNew]
        exact increasing_keySet _
      have hone : [entry].lookup key = if key = entry.1 then some entry.2 else none := by
        obtain ⟨k, value⟩ := entry
        rw [List.lookup_cons, List.lookup_nil]
        split
        · next heq => rw [if_pos (beq_iff_eq.mp heq)]
        · next heq => rw [if_neg (beq_eq_false_iff_ne.mp heq)]
      rw [List.foldl_concat, lookup?_insertNew key entry.2 hincreasing, ih, List.lookup_append,
        hone]

end ResourceLint.Assoc
