import Mathlib.Data.List.Nodup
import Mathlib.Logic.Function.Basic

/- The memory of a program as cells that malloc hands out and free takes back. What is not live
   cannot be read, written or freed, and no address is handed out twice. The addresses below base
   are of static variables, which cannot be freed. -/
namespace UC.Heaps

structure Heap (κ : Type*) where
  base : Nat
  cells : Nat → Option κ
  fresh : Nat
  freed : List Nat

variable {κ : Type*}

namespace Heap

def put (h : Heap κ) (a : Nat) (cell : κ) : Heap κ :=
  { h with cells := Function.update h.cells a (some cell) }

def write (h : Heap κ) (a : Nat) (cell : κ) : Option (Heap κ) := (h.cells a).map fun _ => h.put a cell

/-- The address, and the heap with the cell there. -/
def malloc (h : Heap κ) (cell : κ) : Nat × Heap κ :=
  (h.fresh, { h.put h.fresh cell with fresh := h.fresh + 1 })

def drop (h : Heap κ) (a : Nat) : Heap κ :=
  { h with cells := Function.update h.cells a none, freed := h.freed ++ [a] }

def free (h : Heap κ) (a : Nat) : Option (Heap κ) :=
  if h.base ≤ a then (h.cells a).map fun _ => h.drop a else none

/-- What was handed out is live or was freed once. -/
structure Sound (h : Heap κ) : Prop where
  begun : h.base ≤ h.fresh
  once : h.freed.Nodup
  dynamic : ∀ a ∈ h.freed, h.base ≤ a ∧ a < h.fresh
  live : ∀ a, (h.cells a).isSome ↔ a < h.fresh ∧ a ∉ h.freed

variable {h : Heap κ} {a : Nat}

theorem sound_start {base : Nat} {cells : Nat → Option κ}
    (statics : ∀ a, (cells a).isSome ↔ a < base) : Sound ⟨base, cells, base, []⟩ where
  begun := Nat.le_refl base
  once := List.nodup_nil
  dynamic := fun _ member => absurd member List.not_mem_nil
  live a := by simpa using statics a

@[simp] theorem put_same (h : Heap κ) (a : Nat) (cell : κ) : (h.put a cell).cells a = some cell :=
  Function.update_self _ _ _

theorem put_other (h : Heap κ) {a b : Nat} (cell : κ) (other : b ≠ a) :
    (h.put a cell).cells b = h.cells b := Function.update_of_ne other _ _

@[simp] theorem drop_same (h : Heap κ) (a : Nat) : (h.drop a).cells a = none :=
  Function.update_self _ _ _

theorem drop_other (h : Heap κ) {a b : Nat} (other : b ≠ a) : (h.drop a).cells b = h.cells b :=
  Function.update_of_ne other _ _

@[simp] theorem malloc_new (h : Heap κ) (cell : κ) :
    (h.malloc cell).2.cells h.fresh = some cell := h.put_same _ _

theorem malloc_other (h : Heap κ) (cell : κ) (other : a ≠ h.fresh) :
    (h.malloc cell).2.cells a = h.cells a := h.put_other _ other

theorem write_live {old : κ} (live : h.cells a = some old) (cell : κ) :
    h.write a cell = some (h.put a cell) := by
  rw [write, live, Option.map_some]

theorem free_live {old : κ} (live : h.cells a = some old) (dynamic : h.base ≤ a) :
    h.free a = some (h.drop a) := by
  rw [free, if_pos dynamic, live, Option.map_some]

theorem sound_put (sound : Sound h) {old : κ} (live : h.cells a = some old) (cell : κ) :
    Sound (h.put a cell) := by
  refine ⟨sound.begun, sound.once, sound.dynamic, ?_⟩
  intro b
  have before := sound.live b
  by_cases same : b = a
  · subst same
    rw [live] at before
    rw [put_same]
    exact before
  · rw [put_other h cell same]
    exact before

theorem sound_malloc (sound : Sound h) (cell : κ) : Sound (h.malloc cell).2 := by
  have unfreed : h.fresh ∉ h.freed := fun member =>
    Nat.lt_irrefl _ (sound.dynamic _ member).2
  refine ⟨Nat.le_succ_of_le sound.begun, sound.once,
    fun b member => ⟨(sound.dynamic b member).1, Nat.lt_succ_of_lt (sound.dynamic b member).2⟩, ?_⟩
  intro b
  change (Function.update h.cells h.fresh (some cell) b).isSome ↔ b < h.fresh + 1 ∧ b ∉ h.freed
  by_cases same : b = h.fresh
  · subst same
    simp [unfreed]
  · rw [Function.update_of_ne same, sound.live b]
    constructor
    · exact fun both => ⟨Nat.lt_succ_of_lt both.1, both.2⟩
    · exact fun both => ⟨by omega, both.2⟩

theorem sound_drop (sound : Sound h) {old : κ} (live : h.cells a = some old)
    (dynamic : h.base ≤ a) : Sound (h.drop a) := by
  have before := (sound.live a).mp (by rw [live]; rfl)
  refine ⟨sound.begun, ?_, ?_, ?_⟩
  · exact List.Nodup.append sound.once (List.nodup_singleton a)
      (List.disjoint_singleton.mpr before.2)
  · intro b member
    rcases List.mem_append.mp member with old | new
    · exact sound.dynamic b old
    · rw [List.mem_singleton.mp new]
      exact ⟨dynamic, before.1⟩
  · intro b
    change ((h.drop a).cells b).isSome ↔ b < h.fresh ∧ b ∉ h.freed ++ [a]
    by_cases same : b = a
    · subst same
      simp
    · rw [drop_other h same, sound.live b]
      simp [same]

/-- When nothing but the static variables is live, everything was freed exactly once. -/
theorem all_freed (sound : Sound h) (gone : ∀ a, h.base ≤ a → h.cells a = none) :
    h.freed.Perm (List.range' h.base (h.fresh - h.base)) := by
  rw [List.perm_ext_iff_of_nodup sound.once List.nodup_range']
  intro a
  rw [List.mem_range'_1]
  constructor
  · intro member
    have bounds := sound.dynamic a member
    omega
  · intro bounds
    by_contra unfreed
    have live := (sound.live a).mpr ⟨by omega, unfreed⟩
    rw [gone a bounds.1] at live
    cases live

/-- h' is h when the addresses in xs were freed. -/
structure Dropped (h h' : Heap κ) (xs : List Nat) : Prop where
  base : h'.base = h.base
  fresh : h'.fresh = h.fresh
  sound : h.Sound → h'.Sound
  gone : ∀ a ∈ xs, h'.cells a = none
  kept : ∀ a ∉ xs, h'.cells a = h.cells a

theorem dropped_nil (h : Heap κ) : Dropped h h [] :=
  ⟨rfl, rfl, id, fun _ member => absurd member List.not_mem_nil, fun _ _ => rfl⟩

theorem dropped_drop {old : κ} (live : h.cells a = some old) (dynamic : h.base ≤ a) :
    Dropped h (h.drop a) [a] := by
  refine ⟨rfl, rfl, fun sound => sound_drop sound live dynamic, ?_, ?_⟩
  · intro b member
    rw [List.mem_singleton.mp member, drop_same]
  · intro b outside
    exact drop_other h fun same => outside (List.mem_singleton.mpr same)

theorem dropped_append {g k : Heap κ} {xs ys : List Nat} (first : Dropped h g xs)
    (second : Dropped g k ys) : Dropped h k (xs ++ ys) := by
  refine ⟨second.base.trans first.base, second.fresh.trans first.fresh,
    fun sound => second.sound (first.sound sound), ?_, ?_⟩
  · intro b member
    by_cases later : b ∈ ys
    · exact second.gone b later
    · rw [second.kept b later]
      exact first.gone b ((List.mem_append.mp member).resolve_right later)
  · intro b outside
    rw [List.mem_append, not_or] at outside
    rw [second.kept b outside.2, first.kept b outside.1]

end Heap

end UC.Heaps
