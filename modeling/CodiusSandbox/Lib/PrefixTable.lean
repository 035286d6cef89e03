import Mathlib.Tactic.Common
/-!
# Prefix search in a table sorted by its keys

The keys are strings in lexicographic order. A scan in that order that stops at the first key which
is a prefix of the text stops at the *shortest* such key (`firstPrefix_iff`), so extending the text
on the right changes nothing once a key matches (`firstPrefix_append`).
-/
namespace PrefixTable

variable {α β : Type}

/-- `key` is the longest of the keys that are prefixes of `text`. -/
def IsLongest (keys : List (List α)) (text key : List α) : Prop :=
  key ∈ keys ∧ key <+: text ∧ ∀ k ∈ keys, k <+: text → k.length ≤ key.length

/-- `key` is the shortest of the keys that are prefixes of `text`. -/
def IsShortest (keys : List (List α)) (text key : List α) : Prop :=
  key ∈ keys ∧ key <+: text ∧ ∀ k ∈ keys, k <+: text → key.length ≤ k.length

theorem prefix_eq_of_length {a b text : List α} (ha : a <+: text) (hb : b <+: text)
    (h : a.length = b.length) : a = b :=
  (List.prefix_of_prefix_length_le ha hb (Nat.le_of_eq h)).eq_of_length h

theorem IsLongest.unique {keys : List (List α)} {text k k' : List α} (h : IsLongest keys text k)
    (h' : IsLongest keys text k') : k = k' :=
  prefix_eq_of_length h.2.1 h'.2.1 (Nat.le_antisymm (h'.2.2 k h.1 h.2.1) (h.2.2 k' h'.1 h'.2.1))

/-- The shortest match is the longest exactly if it is the only one. -/
theorem IsShortest.isLongest_iff {keys : List (List α)} {text key : List α}
    (h : IsShortest keys text key) :
    IsLongest keys text key ↔ ∀ k ∈ keys, k <+: text → k = key := by
  constructor
  · intro hl k hk hp
    exact prefix_eq_of_length hp h.2.1 (Nat.le_antisymm (hl.2.2 k hk hp) (h.2.2 k hk hp))
  · intro hall
    exact ⟨h.1, h.2.1, fun k hk hp => Nat.le_of_eq (by rw [hall k hk hp])⟩

/-- A text with a match has a longest one. -/
theorem exists_isLongest {keys : List (List α)} {text : List α} {key : List α} (hk : key ∈ keys)
    (hp : key <+: text) : ∃ k, IsLongest keys text k := by
  by_cases h : ∀ k ∈ keys, k <+: text → k.length ≤ key.length
  · exact ⟨key, hk, hp, h⟩
  · simp only [Classical.not_forall, Nat.not_le] at h
    obtain ⟨k, hk', hp', hlt⟩ := h
    have := hp'.length_le
    exact exists_isLongest hk' hp'
termination_by text.length - key.length

variable [BEq α] [LawfulBEq α]

/-- First entry whose key is a prefix of `text`. -/
def firstPrefix (l : List (List α × β)) (text : List α) : Option (List α × β) :=
  l.find? fun e => e.1.isPrefixOf text

theorem firstPrefix_eq_none {l : List (List α × β)} {text : List α} :
    firstPrefix l text = none ↔ ∀ e ∈ l, ¬ e.1 <+: text := by
  simp [firstPrefix, List.find?_eq_none, List.isPrefixOf_iff_prefix]

variable [Ord α]

/-- Keys strictly increasing. -/
def Sorted (l : List (List α × β)) : Prop := l.Pairwise fun a b => compare a.1 b.1 = .lt

variable [Std.TransOrd α]

omit [BEq α] [LawfulBEq α] in
/-- A prefix does not come later in the order. -/
theorem compare_ne_gt : ∀ {a b : List α}, a <+: b → compare a b ≠ .gt
  | [], [], _ => by simp
  | [], _ :: _, _ => by simp [List.compare_nil_cons]
  | _ :: _, [], h => by simp at h
  | x :: a, y :: b, h => by
    obtain ⟨rfl, hab⟩ := List.cons_prefix_cons.1 h
    rw [List.compare_cons_cons, Std.ReflOrd.compare_self]
    exact compare_ne_gt hab

omit [BEq α] [LawfulBEq α] in
/-- Of two matching keys the later one is the longer one. -/
theorem length_lt_of_compare {a b text : List α} (h : compare a b = .lt) (ha : a <+: text)
    (hb : b <+: text) : a.length < b.length := by
  rcases Nat.lt_or_ge a.length b.length with hlt | hge
  · exact hlt
  · exact absurd (Std.OrientedCmp.gt_of_lt h)
      (compare_ne_gt (List.prefix_of_prefix_length_le hb ha hge))

theorem firstPrefix_iff {text : List α} {e : List α × β} :
    ∀ {l : List (List α × β)}, Sorted l →
      (firstPrefix l text = some e ↔ e ∈ l ∧ IsShortest (l.map Prod.fst) text e.1)
  | [], _ => by simp [firstPrefix]
  | x :: l, hs => by
    obtain ⟨hx, hs⟩ := List.pairwise_cons.1 hs
    have ih : firstPrefix l text = some e ↔ e ∈ l ∧ IsShortest (l.map Prod.fst) text e.1 :=
      firstPrefix_iff hs
    simp only [firstPrefix, IsShortest, List.mem_map, forall_exists_index, and_imp,
      forall_apply_eq_imp_iff₂, List.find?_cons, List.mem_cons] at ih ⊢
    by_cases hp : x.1 <+: text
    · simp only [ List.isPrefixOf_iff_prefix.2 hp, Option.some.injEq]
      constructor
      · rintro rfl
        refine ⟨Or.inl rfl, ⟨x, Or.inl rfl, rfl⟩, hp, fun k hk hk' => ?_⟩
        rcases hk with rfl | hk
        · exact Nat.le_refl _
        · exact Nat.le_of_lt (length_lt_of_compare (hx k hk) hp hk')
      · rintro ⟨rfl | he, _, hpe, hmin⟩
        · rfl
        · have h1 := hmin x (Or.inl rfl) hp
          have h2 := length_lt_of_compare (hx e he) hp hpe
          omega
    · have hf : x.1.isPrefixOf text = false := by
        rw [← Bool.not_eq_true, List.isPrefixOf_iff_prefix]; exact hp
      simp only [hf, ih]
      constructor
      · rintro ⟨he, ⟨k, hk, hke⟩, hpe, hmin⟩
        refine ⟨Or.inr he, ⟨k, Or.inr hk, hke⟩, hpe, fun k' hk' hp' => ?_⟩
        rcases hk' with rfl | hk'
        · exact absurd hp' hp
        · exact hmin k' hk' hp'
      · rintro ⟨rfl | he, _, hpe, hmin⟩
        · exact absurd hpe hp
        · exact ⟨he, ⟨e, he, rfl⟩, hpe, fun k hk => hmin k (Or.inr hk)⟩

/-- A text that extends one with a match has the same match. -/
theorem firstPrefix_append {l : List (List α × β)} (hs : Sorted l) {text : List α}
    {e : List α × β} (h : firstPrefix l text = some e) (rest : List α) :
    firstPrefix l (text ++ rest) = some e := by
  obtain ⟨he, hk, hp, hmin⟩ := (firstPrefix_iff hs).1 h
  have hp' := hp.trans (List.prefix_append text rest)
  refine (firstPrefix_iff hs).2 ⟨he, hk, hp', fun k hk hpk => ?_⟩
  rcases Nat.lt_or_ge k.length e.1.length with hlt | hge
  · exact hmin k hk ((List.prefix_of_prefix_length_le hpk hp' (Nat.le_of_lt hlt)).trans hp)
  · exact hge

end PrefixTable
