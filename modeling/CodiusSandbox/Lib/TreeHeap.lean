import Mathlib.Logic.Function.Basic
import Mathlib.Data.List.Nodup
import Mathlib.Data.List.Perm.Subperm
import Mathlib.Tactic.Common
/-!
# Trees in memory

Nodes lie in cells. A cell says where the node hangs and holds the node's contents, which for an
inner node are the addresses of its children. `Forest m parent ps l cells` says that the store `m`
holds the trees `l` at `ps`, all hanging from `parent`, in `cells` and in no others.
-/
namespace TreeHeap

/-- What a tree's root keeps in its cell once its children lie somewhere, and the children. -/
class Layout (T : Type) (V K : outParam Type) where
  contents : T → List Nat → V
  children : T → List (K × T)

/-- A node in memory: `key` is what its parent knows it by. -/
structure Cell (V K : Type) where
  parent : Option Nat
  key : K
  contents : V
deriving DecidableEq

/-- The cells in use. -/
abbrev Store (V K : Type) := Nat → Option (Cell V K)

variable {T V K : Type} [Layout T V K]

inductive Forest (m : Store V K) : Option Nat → List Nat → List (K × T) → List Nat → Prop
  | nil {parent : Option Nat} : Forest m parent [] [] []
  | cons {parent : Option Nat} {p : Nat} {key : K} {t : T} {ps qs cells below : List Nat}
      {l : List (K × T)} (root : m p = some ⟨parent, key, Layout.contents t qs⟩)
      (kids : Forest m (some p) qs (Layout.children t) below) (rest : Forest m parent ps l cells)
      (free : p ∉ below ++ cells) (apart : below.Disjoint cells) :
      Forest m parent (p :: ps) ((key, t) :: l) (p :: (below ++ cells))

section
variable {m m' : Store V K} {parent : Option Nat} {ps qs cells cells' : List Nat}
  {l l' : List (K × T)} {p : Nat}

/-- Only the cells of a forest matter to it. -/
theorem Forest.congr (h : Forest m parent ps l cells) (agree : ∀ a ∈ cells, m' a = m a) :
    Forest m' parent ps l cells := by
  induction h with
  | nil => exact .nil
  | cons root kids rest free apart ihk ihr =>
    refine .cons ?_ (ihk fun a ha => agree a (by simp [ha])) (ihr fun a ha => agree a (by simp [ha]))
      free apart
    rw [agree _ (by simp)]
    exact root

/-- The cells of a forest are in use. -/
theorem Forest.live (h : Forest m parent ps l cells) {a : Nat} (ha : a ∈ cells) :
    (m a).isSome = true := by
  induction h with
  | nil => simp at ha
  | cons root kids rest free apart ihk ihr =>
    simp only [List.mem_cons, List.mem_append] at ha
    rcases ha with rfl | ha | ha
    · simp [root]
    · exact ihk ha
    · exact ihr ha

theorem Forest.root_mem (h : Forest m parent ps l cells) (hp : p ∈ ps) : p ∈ cells := by
  induction h with
  | nil => simp at hp
  | cons root kids rest free apart ihk ihr =>
    rcases List.mem_cons.1 hp with rfl | hp
    · simp
    · simp [ihr hp]

theorem Forest.length_eq (h : Forest m parent ps l cells) : ps.length = l.length := by
  induction h with
  | nil => rfl
  | cons root kids rest free apart ihk ihr => rw [List.length_cons, List.length_cons, ihr]

/-- Forests that share no cell stand side by side. -/
theorem Forest.append (h : Forest m parent ps l cells) (h' : Forest m parent qs l' cells')
    (apart : cells.Disjoint cells') : Forest m parent (ps ++ qs) (l ++ l') (cells ++ cells') := by
  induction h with
  | nil => exact h'
  | @cons parent p key t ps qs' cells below l root kids rest free hap ihk ihr =>
    simp only [List.disjoint_cons_left, List.disjoint_append_left] at apart
    simp only [List.cons_append, List.append_assoc]
    refine .cons root kids (ihr h' apart.2.2) ?_ ?_
    · simp only [List.mem_append, not_or] at free ⊢
      exact ⟨free.1, free.2, apart.1⟩
    · exact List.disjoint_append_right.2 ⟨hap, apart.2.1⟩

/-- One tree. -/
theorem forest_singleton {key : K} {t : T} : Forest m parent [p] [(key, t)] cells ↔
    ∃ qs below, m p = some ⟨parent, key, Layout.contents t qs⟩ ∧
      Forest m (some p) qs (Layout.children t) below ∧ p ∉ below ∧ cells = p :: below := by
  constructor
  · intro h
    cases h with
    | cons root kids rest free apart =>
      cases rest
      simp only [List.append_nil] at free ⊢
      exact ⟨_, _, root, kids, free, rfl⟩
  · rintro ⟨qs, below, root, kids, free, rfl⟩
    have h := Forest.cons root kids .nil (by simpa using free) (List.disjoint_nil_right _)
    rwa [List.append_nil] at h

/-- Where a tree hangs is written in its root. -/
theorem Forest.hang {key key' : K} {t : T} {parent' : Option Nat} {v : V}
    (h : Forest m parent [p] [(key, t)] cells) (old : m p = some ⟨parent, key, v⟩)
    (new : m' p = some ⟨parent', key', v⟩) (agree : ∀ a ∈ cells, a ≠ p → m' a = m a) :
    Forest m' parent' [p] [(key', t)] cells := by
  obtain ⟨qs, below, root, kids, hp, rfl⟩ := forest_singleton.1 h
  rw [old, Option.some.injEq, Cell.mk.injEq] at root
  refine forest_singleton.2 ⟨qs, below, ?_, kids.congr fun a ha => ?_, hp, rfl⟩
  · rw [new, root.2.2]
  · exact agree a (by simp [ha]) fun he => hp (he ▸ ha)

theorem Forest.nodup (h : Forest m parent ps l cells) : cells.Nodup := by
  induction h with
  | nil => exact List.nodup_nil
  | cons root kids rest free apart ihk ihr =>
    exact List.nodup_cons.2 ⟨free, List.nodup_append'.2 ⟨ihk, ihr, apart⟩⟩

/-- A forest below `n` has at most `n` cells. -/
theorem Forest.length_le {n : Nat} (h : Forest m parent ps l cells) (hn : ∀ a ∈ cells, a < n) :
    cells.length ≤ n := by
  have hsub : cells ⊆ List.range n := fun a ha => List.mem_range.2 (hn a ha)
  have hle := (List.subperm_of_subset h.nodup hsub).length_le
  rwa [List.length_range] at hle

end

end TreeHeap
