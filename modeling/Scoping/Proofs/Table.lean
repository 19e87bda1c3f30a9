import Scoping.Table

/-!
# Tables as finite maps

What the operations of a table do to its look-up `Table.get?`, key by key. A table is *functional*
if no namespace binds a name twice; every operation keeps that, and in a functional table the list
of entries says nothing more than the look-up.
-/

namespace Scoping

namespace NameMap

variable {α : Type} (m : NameMap α) (name : String) (value : α) {k : String}

private theorem lookup_cons_ne {name : String} (hk : k ≠ name) (rest : List (String × α)) :
    ((name, value) :: rest).lookup k = rest.lookup k := by
  rw [List.lookup_cons, beq_false_of_ne hk]

private theorem lookup_setEntry (k : String) : ∀ entries : List (String × α),
    (setEntry name value entries).lookup k = if k = name then some value else entries.lookup k
  | [] => by
    by_cases hk : k = name
    · simp [setEntry, hk]
    · simp [setEntry, hk, lookup_cons_ne value hk]
  | (name', value') :: rest => by
    have ih := lookup_setEntry k rest
    by_cases hn : name' = name
    · subst hn
      by_cases hk : k = name'
      · simp [setEntry, hk]
      · simp [setEntry, hk, lookup_cons_ne _ hk]
    · by_cases hk : k = name'
      · subst hk
        simp [setEntry, hn]
      · simp [setEntry, hn, lookup_cons_ne _ hk, ih]

theorem find?_set (k : String) :
    (m.set name value).find? k = if k = name then some value else m.find? k :=
  lookup_setEntry name value k m.entries

/-- A free name is bound, and every other binding stays as it is. -/
theorem find?_insertNew_of_free (free : m.find? name = none) (k : String) :
    (m.insertNew name value).find? k = if k = name then some value else m.find? k := by
  by_cases hk : k = name
  · subst hk
    rw [if_pos rfl, find?_insertNew_self m value free]
  · have habsent : m.contains name = false := by simp [contains, free]
    simp [insertNew, habsent, find?, List.lookup_append, lookup_cons_ne value hk, hk]

theorem find?_eq_none_iff : m.find? name = none ↔ name ∉ m.keys := by
  simp only [find?, keys, List.lookup_eq_none_iff, List.mem_map, Prod.exists, exists_and_right,
    exists_eq_right, not_exists]
  constructor
  · intro h v hv
    simpa using h (name, v) hv
  · rintro h ⟨k, v⟩ hp
    simp only [bne_iff_ne, ne_eq]
    rintro rfl
    exact h v hp

theorem mem_entries_of_find? {m : NameMap α} {name : String} {value : α}
    (h : m.find? name = some value) : (name, value) ∈ m.entries := by
  obtain ⟨l₁, l₂, hsplit, -⟩ := List.lookup_eq_some_iff.mp h
  simp [hsplit]

/-- With every name bound once, the entries are the graph of the look-up. -/
theorem find?_of_mem_entries {m : NameMap α} (hm : m.keys.Nodup) {name : String} {value : α}
    (h : (name, value) ∈ m.entries) : m.find? name = some value := by
  obtain ⟨l₁, l₂, hsplit⟩ := List.append_of_mem h
  refine List.lookup_eq_some_iff.mpr ⟨l₁, l₂, hsplit, fun p hp => ?_⟩
  rw [keys, hsplit, List.map_append, List.nodup_append] at hm
  have hne := hm.2.2 p.1 (List.mem_map_of_mem hp) name (by simp)
  simpa using hne.symm

private theorem mem_setEntry {k : String} {v : α} : ∀ {entries : List (String × α)},
    (k, v) ∈ setEntry name value entries → (k, v) ∈ entries ∨ v = value
  | [], h => .inr (Prod.mk.inj (List.mem_singleton.mp h)).2
  | (name', value') :: rest, h => by
    rw [setEntry] at h
    split at h
    · rcases List.mem_cons.mp h with h | h
      · exact .inr (Prod.mk.inj h).2
      · exact .inl (List.mem_cons_of_mem _ h)
    · rcases List.mem_cons.mp h with h | h
      · exact .inl (h ▸ List.mem_cons_self)
      · exact (mem_setEntry h).imp_left (List.mem_cons_of_mem _)

/-- Binding a name adds no other value. -/
theorem mem_entries_set {v : α} (h : (k, v) ∈ (m.set name value).entries) :
    (k, v) ∈ m.entries ∨ v = value :=
  mem_setEntry name value h

private theorem mem_map_fst_setEntry (k : String) : ∀ entries : List (String × α),
    k ∈ (setEntry name value entries).map Prod.fst ↔ k = name ∨ k ∈ entries.map Prod.fst
  | [] => by simp [setEntry]
  | (name', value') :: rest => by
    have ih := mem_map_fst_setEntry k rest
    by_cases hn : name' = name
    · subst hn
      simp [setEntry]
    · simp only [setEntry, hn, if_false, List.map_cons, List.mem_cons, ih]
      grind

private theorem nodup_map_fst_setEntry : ∀ {entries : List (String × α)},
    (entries.map Prod.fst).Nodup → ((setEntry name value entries).map Prod.fst).Nodup
  | [], _ => by simp [setEntry]
  | (name', value') :: rest, h => by
    rw [List.map_cons, List.nodup_cons] at h
    by_cases hn : name' = name
    · subst hn
      simpa [setEntry] using h
    · simp only [setEntry, hn, if_false, List.map_cons, List.nodup_cons]
      refine ⟨fun hmem => ?_, nodup_map_fst_setEntry h.2⟩
      rcases (mem_map_fst_setEntry name value name' rest).mp hmem with heq | hmem
      · exact hn heq
      · exact h.1 hmem

theorem keys_nodup_set (h : m.keys.Nodup) : (m.set name value).keys.Nodup :=
  nodup_map_fst_setEntry name value h

theorem keys_nodup_insertNew (h : m.keys.Nodup) : (m.insertNew name value).keys.Nodup := by
  by_cases htaken : m.contains name = true
  · rwa [insertNew_of_contains m value htaken]
  · have hfree : m.find? name = none := by simpa [contains] using htaken
    have habsent := (find?_eq_none_iff m name).mp hfree
    simp only [insertNew, htaken, Bool.false_eq_true, if_false, keys, List.map_append,
      List.map_cons, List.map_nil]
    refine List.nodup_append.mpr ⟨h, by simp, ?_⟩
    rintro a ha b hb rfl
    rw [List.mem_singleton] at hb
    subst hb
    exact habsent ha

private theorem map_fst_prefix_setEntry : ∀ entries : List (String × α),
    entries.map Prod.fst <+: (setEntry name value entries).map Prod.fst
  | [] => List.nil_prefix
  | (name', value') :: rest => by
    by_cases hn : name' = name
    · subst hn
      simp [setEntry]
    · simpa only [setEntry, hn, if_false, List.map_cons, List.prefix_cons_inj] using
        map_fst_prefix_setEntry rest

/-- Overwriting moves no name. -/
theorem keys_prefix_set : m.keys <+: (m.set name value).keys :=
  map_fst_prefix_setEntry name value m.entries

theorem keys_prefix_insertNew : m.keys <+: (m.insertNew name value).keys := by
  rw [insertNew]
  split
  · exact List.prefix_rfl
  · rw [keys, keys, List.map_append]
    exact List.prefix_append _ _

/-- With every name bound once, the entry at a position is what its name is bound to. -/
theorem getElem?_entries_iff {m : NameMap α} (hm : m.keys.Nodup) {i : Nat} {name : String}
    {value : α} : m.entries[i]? = some (name, value) ↔
      m.keys[i]? = some name ∧ m.find? name = some value := by
  rw [keys, List.getElem?_map]
  constructor
  · intro h
    exact ⟨by rw [h]; rfl, find?_of_mem_entries hm (List.mem_of_getElem? h)⟩
  · rintro ⟨hkey, hvalue⟩
    obtain ⟨⟨name', value'⟩, hentry, rfl⟩ := Option.map_eq_some_iff.mp hkey
    rw [find?_of_mem_entries hm (List.mem_of_getElem? hentry)] at hvalue
    rw [hentry, Option.some.inj hvalue]

end NameMap

namespace Table

variable {t : Table} {ns : Namespace} {name : String} {id : SymbolId} {ns' : Namespace}
  {name' : String} {x : SymbolId}

theorem space_update (f : NameMap SymbolId → NameMap SymbolId) (ns' : Namespace) :
    (t.update f ns).space ns' = if ns' = ns then f (t.space ns') else t.space ns' := by
  cases ns <;> cases ns' <;> rfl

/-- Keys stay, in the order of their declaration, when a symbol is declared. -/
theorem keys_prefix_insert (ns' : Namespace) :
    (t.space ns').keys <+: ((t.insert ns name id).space ns').keys := by
  rw [insert, space_update]
  split
  · exact NameMap.keys_prefix_insertNew _ name id
  · exact List.prefix_rfl

theorem keys_prefix_replace (ns' : Namespace) :
    (t.space ns').keys <+: ((t.replace ns name id).space ns').keys := by
  rw [replace, space_update]
  split
  · exact NameMap.keys_prefix_set _ name id
  · exact List.prefix_rfl

@[simp]
theorem get?_empty : ({} : Table).get? ns name = none := by
  cases ns <;> rfl

/-- Overwriting changes the look-up at one key. -/
theorem get?_replace (ns' : Namespace) (name' : String) :
    (t.replace ns name id).get? ns' name' =
      if ns' = ns ∧ name' = name then some id else t.get? ns' name' := by
  rw [get?, replace, space_update]
  by_cases hns : ns' = ns
  · simp [hns, NameMap.find?_set, get?]
  · simp [hns, get?]

/-- A name that is taken cannot be declared again. -/
theorem insert_of_get? (h : t.get? ns name = some x) : t.insert ns name id = t := by
  have htaken : (t.space ns).contains name = true := Option.isSome_iff_exists.mpr ⟨x, h⟩
  cases ns <;> simp only [insert, update, space] at htaken ⊢ <;>
    rw [NameMap.insertNew_of_contains _ _ htaken]

/-- Declaring a free name changes the look-up at one key. -/
theorem get?_insert (free : t.get? ns name = none) (ns' : Namespace) (name' : String) :
    (t.insert ns name id).get? ns' name' =
      if ns' = ns ∧ name' = name then some id else t.get? ns' name' := by
  rw [get?, insert, space_update]
  by_cases hns : ns' = ns
  · subst hns
    simp [NameMap.find?_insertNew_of_free _ _ _ free, get?]
  · simp [hns, get?]

/-- A declaration leaves what the table holds alone. -/
theorem get?_insert_of_get? (h : t.get? ns' name' = some x) :
    (t.insert ns name id).get? ns' name' = some x := by
  by_cases hfree : t.get? ns name = none
  · rw [get?_insert hfree, if_neg, h]
    rintro ⟨rfl, rfl⟩
    rw [h] at hfree
    cases hfree
  · obtain ⟨y, hy⟩ := Option.ne_none_iff_exists'.mp hfree
    rwa [insert_of_get? hy]

/-- What a table holds after a declaration was there before, or has just been declared. -/
theorem get?_eq_none_of_insert (h : (t.insert ns name id).get? ns' name' = none) :
    t.get? ns' name' = none :=
  Option.eq_none_iff_forall_ne_some.mpr fun _ hx => Option.some_ne_none _
    ((get?_insert_of_get? hx).symm.trans h)

theorem get?_eq_none_of_replace (h : (t.replace ns name id).get? ns' name' = none) :
    t.get? ns' name' = none := by
  rw [get?_replace] at h
  split at h
  · cases h
  · exact h

theorem get?_of_insert (h : (t.insert ns name id).get? ns' name' = some x) :
    t.get? ns' name' = some x ∨ x = id := by
  by_cases hfree : t.get? ns name = none
  · rw [get?_insert hfree] at h
    split at h
    · exact .inr (Option.some.inj h).symm
    · exact .inl h
  · obtain ⟨y, hy⟩ := Option.ne_none_iff_exists'.mp hfree
    rw [insert_of_get? hy] at h
    exact .inl h

/-- No namespace binds a name twice. -/
def Functional (t : Table) : Prop := ∀ ns, (t.space ns).keys.Nodup

theorem functional_empty : ({} : Table).Functional := by
  intro ns
  cases ns <;> exact List.nodup_nil

variable (h : t.Functional)

include h

theorem Functional.update {f : NameMap SymbolId → NameMap SymbolId}
    (hf : ∀ m : NameMap SymbolId, m.keys.Nodup → (f m).keys.Nodup) :
    (t.update f ns).Functional := by
  intro ns'
  rw [space_update]
  split
  · exact hf _ (h ns')
  · exact h ns'

theorem Functional.insert : (t.insert ns name id).Functional :=
  h.update fun m => m.keys_nodup_insertNew name id

theorem Functional.replace : (t.replace ns name id).Functional :=
  h.update fun m => m.keys_nodup_set name id

/-- The entries of a functional table are exactly the answers of its look-up. -/
theorem Functional.mem_entries_iff : (name, id) ∈ (t.space ns).entries ↔ t.get? ns name = some id :=
  ⟨NameMap.find?_of_mem_entries (h ns), NameMap.mem_entries_of_find?⟩

theorem Functional.mem_ids_iff : id ∈ t.ids ↔ ∃ ns name, t.get? ns name = some id := by
  simp only [ids, NameMap.values, List.mem_flatMap, List.mem_map, Prod.exists]
  constructor
  · rintro ⟨ns, -, name, _, hentry, rfl⟩
    exact ⟨ns, name, h.mem_entries_iff.mp hentry⟩
  · rintro ⟨ns, name, hget⟩
    exact ⟨ns, by cases ns <;> simp [Namespace.all], name, id, h.mem_entries_iff.mpr hget, rfl⟩

/-- A symbol that has only one key is listed only once. -/
theorem Functional.nodup_ids
    (hkey : ∀ {id ns name ns' name'}, t.get? ns name = some id → t.get? ns' name' = some id →
      ns = ns' ∧ name = name') : t.ids.Nodup := by
  refine List.pairwise_flatMap.mpr ⟨fun ns _ => ?_, ?_⟩
  · refine List.pairwise_map.mpr ((List.pairwise_map.mp (h ns)).imp_of_mem ?_)
    intro a b ha hb hne heq
    rw [← Prod.eta a, h.mem_entries_iff] at ha
    rw [← Prod.eta b, h.mem_entries_iff, ← heq] at hb
    exact hne (hkey ha hb).2
  · have hall : Namespace.all.Nodup := by decide
    refine hall.imp fun hne x hx y hy heq => ?_
    obtain ⟨a, ha, rfl⟩ := List.mem_map.mp hx
    obtain ⟨b, hb, rfl⟩ := List.mem_map.mp hy
    rw [← Prod.eta a, h.mem_entries_iff] at ha
    rw [← Prod.eta b, h.mem_entries_iff, ← heq] at hb
    exact hne (hkey ha hb).1

omit h

end Table

end Scoping
