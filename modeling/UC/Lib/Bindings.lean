import Mathlib.Data.Finmap

/- Lists of bindings that stand for a finite map. -/
namespace UC.Bindings

variable {K V : Type} [DecidableEq K]

abbrev Map (K V : Type) := Finmap fun _ : K => V

structure Lists (m : Map K V) (l : List (K × V)) : Prop where
  distinct : (l.map Prod.fst).Nodup
  lookup : ∀ key value, m.lookup key = some value ↔ (key, value) ∈ l

variable {m : Map K V} {l l' : List (K × V)} {key : K} {value : V}

theorem lists_empty : Lists (∅ : Map K V) [] := by
  constructor
  · exact List.nodup_nil
  · intro key value
    rw [Finmap.lookup_empty]
    simp

theorem mem_iff (lists : Lists m l) (key : K) : key ∈ m ↔ key ∈ l.map Prod.fst := by
  rw [Finmap.mem_iff, List.mem_map]
  constructor
  · rintro ⟨value, found⟩
    exact ⟨(key, value), (lists.lookup key value).mp found, rfl⟩
  · rintro ⟨⟨_, value⟩, mem, rfl⟩
    exact ⟨value, (lists.lookup _ value).mpr mem⟩

theorem card_keys (lists : Lists m l) : m.keys.card = l.length := by
  have keys : m.keys = (l.map Prod.fst).toFinset := by
    ext key
    rw [Finmap.mem_keys, List.mem_toFinset]
    exact mem_iff lists key
  rw [keys, List.toFinset_card_of_nodup lists.distinct, List.length_map]

theorem lists_insert (lists : Lists m l) (absent : key ∉ m) (more : l'.Perm ((key, value) :: l)) :
    Lists (m.insert key value) l' := by
  rw [mem_iff lists] at absent
  constructor
  · rw [(more.map Prod.fst).nodup_iff, List.map_cons]
    exact List.nodup_cons.mpr ⟨absent, lists.distinct⟩
  · intro key' value'
    rw [more.mem_iff, List.mem_cons]
    by_cases same : key' = key
    · subst same
      rw [Finmap.lookup_insert]
      constructor
      · intro eq
        cases eq
        exact .inl rfl
      · rintro (eq | mem)
        · cases eq
          rfl
        · exact absurd (List.mem_map_of_mem (f := Prod.fst) mem) absent
    · rw [Finmap.lookup_insert_of_ne _ same, lists.lookup]
      constructor
      · exact .inr
      · rintro (eq | mem)
        · exact absurd (congrArg Prod.fst eq) same
        · exact mem

theorem lists_erase (lists : Lists m l) (less : l.Perm ((key, value) :: l')) :
    Lists (m.erase key) l' := by
  have distinct := lists.distinct
  rw [(less.map Prod.fst).nodup_iff, List.map_cons, List.nodup_cons] at distinct
  obtain ⟨gone, distinct⟩ := distinct
  constructor
  · exact distinct
  · intro key' value'
    by_cases same : key' = key
    · subst same
      rw [Finmap.lookup_erase]
      constructor
      · intro eq
        cases eq
      · intro mem
        exact absurd (List.mem_map_of_mem (f := Prod.fst) mem) gone
    · rw [Finmap.lookup_erase_ne same, lists.lookup, less.mem_iff, List.mem_cons]
      constructor
      · rintro (eq | mem)
        · exact absurd (congrArg Prod.fst eq) same
        · exact mem
      · exact .inr

end UC.Bindings
