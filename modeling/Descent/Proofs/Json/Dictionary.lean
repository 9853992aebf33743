import Descent.Proofs.Json.Notation
import Mathlib.Data.List.Induction
import Mathlib.Data.List.Nodup

/-!
# Descent — tables made of properties

An object is built by putting its properties into a table one by one. What comes out is
`dictionary`, which says at once where each key stands and which value it has.

* **`insert_dictionary`** — putting in one more property.
* **`toEntries_properties`** — the table of a whole list of properties.
* **`dictionary_of_nodup`** — properties with distinct keys are the entries as they stand.
-/

namespace Descent.Json

/-! ## First occurrences

`List.eraseDups` keeps the first occurrence of each item. Putting one more item behind, as a table
does with its keys, changes it only if the item is new. -/

section

variable {α : Type} [BEq α] [LawfulBEq α]

/-- An item behind a list is a duplicate if it is in the list already. -/
theorem eraseDups_concat [DecidableEq α] (l : List α) (a : α) :
    (l ++ [a]).eraseDups = if a ∈ l then l.eraseDups else l.eraseDups ++ [a] := by
  rw [List.eraseDups_append]
  by_cases ha : a ∈ l
  · simp [List.removeAll, ha]
  · simp [List.removeAll, ha, List.eraseDups_cons]

theorem nodup_eraseDups [DecidableEq α] (l : List α) : l.eraseDups.Nodup := by
  induction l using List.reverseRecOn with
  | nil => exact List.nodup_nil
  | append_singleton l b ih =>
    rw [eraseDups_concat]
    by_cases hb : b ∈ l
    · rwa [if_pos hb]
    · rw [if_neg hb]
      exact List.nodup_append.mpr ⟨ih, List.nodup_singleton b, fun a ha c hc => by
        rintro rfl
        exact hb (List.mem_eraseDups.mp (List.mem_singleton.mp hc ▸ ha))⟩

end

/-! ## Putting properties in

The entries of a dictionary are those of a list of distinct keys, under a function that gives each
its value. A new value for a key is a new function; a new key is also a longer list. -/

theorem same_text (a b : Text) : (Value.text a).same (.text b) = decide (a = b) := by
  simp [Value.same, Value.sameNaN, Value.equal]

/-- The entries for given keys, as far as they have a value. -/
def entriesFor (valueOf : Text → Option Value) (keys : List Text) : Table.Entries :=
  keys.filterMap fun k => (valueOf k).map fun v => (.text k, v)

/-- Only the values under the given keys matter. -/
theorem entriesFor_congr {f g : Text → Option Value} {keys : List Text}
    (h : ∀ k ∈ keys, f k = g k) :
    entriesFor f keys = entriesFor g keys :=
  List.filterMap_congr fun k hk => by rw [h k hk]

/-- A key with a value makes the first entry. -/
theorem entriesFor_cons {f : Text → Option Value} {k : Text} {v : Value} (h : f k = some v)
    (keys : List Text) :
    entriesFor f (k :: keys) = (.text k, v) :: entriesFor f keys := by
  simp only [entriesFor, List.filterMap_cons, h, Option.map_some]

/-- A key that is put into entries of distinct keys takes its place or goes to the end. -/
theorem insert_entriesFor {f : Text → Option Value} {keys : List Text} (hnodup : keys.Nodup)
    (hf : ∀ k ∈ keys, (f k).isSome) (k : Text) (v : Value) :
    Table.insert (.text k) v (entriesFor f keys)
      = entriesFor (fun k' => if k' = k then some v else f k')
        (if k ∈ keys then keys else keys ++ [k]) := by
  induction keys with
  | nil => simp [entriesFor, Table.insert]
  | cons a keys ih =>
    obtain ⟨hnotin, hnodup⟩ := List.nodup_cons.mp hnodup
    obtain ⟨w, hw⟩ := Option.isSome_iff_exists.mp (hf a List.mem_cons_self)
    have ih := ih hnodup fun k' hk' => hf k' (List.mem_cons_of_mem a hk')
    rw [entriesFor_cons hw, Table.insert, same_text]
    by_cases hak : a = k
    · -- the key stands here, so it is in no later place and the other values stay
      subst hak
      rw [if_pos (decide_eq_true rfl), if_pos List.mem_cons_self, entriesFor_cons (if_pos rfl)]
      congr 1
      refine entriesFor_congr fun k' hk' => ?_
      rw [if_neg]
      rintro rfl
      exact hnotin hk'
    · -- the key stands later or not at all, and either way this entry stays
      have hmem : k ∈ a :: keys ↔ k ∈ keys := by
        rw [List.mem_cons, or_iff_right (Ne.symm hak)]
      have hkeys : (if k ∈ a :: keys then a :: keys else a :: keys ++ [k])
          = a :: if k ∈ keys then keys else keys ++ [k] := by
        by_cases hk : k ∈ keys
        · rw [if_pos hk, if_pos (hmem.mpr hk)]
        · rw [if_neg hk, if_neg (mt hmem.mp hk), List.cons_append]
      have hvalue : (if a = k then some v else f a) = some w := by rw [if_neg hak, hw]
      rw [if_neg (by simpa using hak), ih, hkeys, entriesFor_cons hvalue]

/-- Each key has its last value, at the place where the key came first. -/
theorem dictionary_eq (ps : List (Text × Value)) :
    dictionary ps = entriesFor (fun k => ps.reverse.lookup k) (ps.map Prod.fst).eraseDups :=
  rfl

/-- One more property. -/
theorem insert_dictionary (ps : List (Text × Value)) (k : Text) (v : Value) :
    Table.insert (.text k) v (dictionary ps) = dictionary (ps ++ [(k, v)]) := by
  have hkeys : ((ps ++ [(k, v)]).map Prod.fst).eraseDups
      = if k ∈ (ps.map Prod.fst).eraseDups then (ps.map Prod.fst).eraseDups
        else (ps.map Prod.fst).eraseDups ++ [k] := by
    rw [List.map_append, List.map_singleton, eraseDups_concat]
    simp only [List.mem_eraseDups]
  have hvalues : (fun k' => (ps ++ [(k, v)]).reverse.lookup k')
      = fun k' => if k' = k then some v else ps.reverse.lookup k' := by
    funext k'
    rw [List.reverse_append, List.reverse_singleton, List.singleton_append, List.lookup_cons]
    by_cases hk : k' = k
    · rw [if_pos hk, beq_iff_eq.mpr hk]
    · rw [if_neg hk, beq_eq_false_iff_ne.mpr hk]
  rw [dictionary_eq, dictionary_eq, hkeys, hvalues]
  -- every key of the list is found when the properties are searched from the last one on
  refine insert_entriesFor (nodup_eraseDups _) ?_ k v
  intro k' hk'
  obtain ⟨p, hp, rfl⟩ := List.mem_map.mp (List.mem_eraseDups.mp hk')
  rw [Option.isSome_iff_ne_none, ne_eq, List.lookup_eq_none_iff]
  intro h
  exact absurd (h p (List.mem_reverse.mpr hp)) (by simp)

def encodeProperty (p : Text × Value) : Value :=
  .tuple [.text p.1, p.2]

/-- A list of pairs is collected one pair at a time, each put into the table of those before it. -/
theorem collectEntries_properties (place : Nat) (done ps : List (Text × Value)) :
    Value.collectEntries place (ps.map encodeProperty) (dictionary done) =
      .ok (dictionary (done ++ ps)) := by
  induction ps generalizing place done with
  | nil => rw [List.append_nil]; rfl
  | cons p ps ih =>
    have hentry : Value.asEntry place (encodeProperty p) = .ok (.text p.1, p.2) := by rfl
    rw [List.map_cons, Value.collectEntries, hentry]
    show Value.collectEntries (place + 1) (ps.map encodeProperty)
        (Table.insert (.text p.1) p.2 (dictionary done)) = _
    rw [insert_dictionary, ih, List.append_assoc, List.singleton_append]

/-- The properties of an object, put into a table one by one. -/
theorem toEntries_properties (ps : List (Text × Value)) :
    (Value.list (ps.map encodeProperty)).toEntries = .ok (dictionary ps) :=
  collectEntries_properties 0 [] ps

/-- A property with text key, as an entry. -/
def toEntry (p : Text × Value) : Value × Value :=
  (.text p.1, p.2)

theorem insert_absent {ps : List (Text × Value)} {k : Text} (h : k ∉ ps.map Prod.fst) (v : Value) :
    Table.insert (.text k) v (ps.map toEntry) = ps.map toEntry ++ [(.text k, v)] := by
  induction ps with
  | nil => rfl
  | cons p ps ih =>
    obtain ⟨hne, hnotin⟩ : k ≠ p.1 ∧ k ∉ ps.map Prod.fst := by simpa using h
    rw [List.map_cons, toEntry, Table.insert, same_text,
      if_neg (by simpa using Ne.symm hne), ih hnotin, List.cons_append]

/-- Without a key that comes twice, the table has the pairs as its entries. -/
theorem dictionary_of_nodup {ps : List (Text × Value)} (h : (ps.map Prod.fst).Nodup) :
    dictionary ps = ps.map toEntry := by
  induction ps using List.reverseRecOn with
  | nil => rfl
  | append_singleton ps p ih =>
    rw [List.map_append, List.map_singleton] at h
    have hnotin : p.1 ∉ ps.map Prod.fst := fun hp =>
      List.disjoint_of_nodup_append h hp (List.mem_singleton_self p.1)
    rw [← insert_dictionary, ih h.of_append_left, insert_absent hnotin, List.map_append]
    rfl

end Descent.Json
