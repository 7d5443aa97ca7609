import Protobuf.Message.Decoding

/-!
# The order of map entries

Entries stand by ascending key, and inserting one keeps them so. Under a key stands the value that
was inserted under it last (`lookup_insertEntries`).
-/

namespace Protobuf

/-- The type has an order that tells its values apart. -/
def ScalarKind.isOrdered : ScalarKind → Bool
  | float | double | bytes | enum _ => false
  | _ => true

namespace Scalar

/-- Only values of one type are ordered. -/
theorem kind_of_lt {a b : Scalar} (h : a.lt b = true) : b.kind = a.kind := by
  cases a <;> cases b <;> first | rfl | cases h

theorem lt_irrefl (a : Scalar) : a.lt a = false := by
  cases a <;> simp [lt]

theorem lt_trans {a b c : Scalar} (hab : a.lt b = true) (hbc : b.lt c = true) :
    a.lt c = true := by
  have hb := kind_of_lt hab
  have hc := kind_of_lt hbc
  cases a <;> cases b <;> try (cases hb; done)
  all_goals
    cases c <;> try (cases hc; done)
  all_goals simp only [lt, decide_eq_true_eq, Bool.and_eq_true] at hab hbc ⊢
  case string.string.string => exact String.lt_trans hab hbc
  case bool.bool.bool => simp [hab.2] at hbc
  all_goals grind

/-- Keys of one type that are not ordered stand alike to all other keys. -/
theorem lt_of_not_lt {a b c : Scalar} (hk : a.kind = b.kind) (hab : a.lt b = false)
    (hba : b.lt a = false) (hbc : b.lt c = true) : a.lt c = true := by
  cases a <;> cases b <;> try (cases hk; done)
  case string.string a b =>
    have heq : a = b := by
      simp only [lt, decide_eq_false_iff_not] at hab hba
      exact String.le_antisymm (String.not_lt.1 hba) (String.not_lt.1 hab)
    rw [heq]
    exact hbc
  all_goals
    cases c <;> try cases hbc
  all_goals simp only [lt, decide_eq_true_eq, decide_eq_false_iff_not, Bool.and_eq_true,
    Bool.and_eq_false_iff] at hab hba hbc ⊢
  all_goals grind

/-- Of two different keys of an ordered type, one comes first. -/
theorem eq_of_not_lt {a b : Scalar} (ho : a.kind.isOrdered = true) (hk : a.kind = b.kind)
    (hab : a.lt b = false) (hba : b.lt a = false) : a = b := by
  cases a <;> try (cases ho; done)
  all_goals
    cases b <;> try (cases hk; done)
  all_goals simp only [lt, decide_eq_false_iff_not, Bool.and_eq_false_iff] at hab hba
  case string.string a b =>
    rw [String.le_antisymm (String.not_lt.1 hba) (String.not_lt.1 hab)]
  all_goals grind

theorem lt_asymm {a b : Scalar} (h : a.lt b = true) : b.lt a = false := by
  cases hba : b.lt a with
  | false => rfl
  | true =>
    have := lt_trans h hba
    rw [lt_irrefl] at this
    cases this

end Scalar

variable {ν : Type}

/-- The entries stand by ascending key. -/
def Ascending (entries : List (Scalar × ν)) : Prop :=
  entries.Pairwise fun e e' => e.1.lt e'.1 = true

theorem mem_of_mem_insertEntry {key : Scalar} {value : ν} {entries : List (Scalar × ν)}
    {e : Scalar × ν} (h : e ∈ insertEntry key value entries) : e = (key, value) ∨ e ∈ entries := by
  induction entries with
  | nil =>
    simp only [insertEntry, List.mem_singleton] at h
    exact Or.inl h
  | cons e' rest ih =>
    unfold insertEntry at h
    split at h
    · exact (List.mem_cons.1 h).imp_right fun h => h
    · split at h
      · rcases List.mem_cons.1 h with rfl | h
        · exact Or.inr List.mem_cons_self
        · exact (ih h).imp_right (List.mem_cons_of_mem _)
      · exact (List.mem_cons.1 h).imp_right (List.mem_cons_of_mem _)

theorem Ascending.insertEntry {kind : ScalarKind} {key : Scalar} {value : ν}
    {entries : List (Scalar × ν)} (hk : key.kind = kind) (hes : ∀ e ∈ entries, e.1.kind = kind)
    (h : Ascending entries) : Ascending (insertEntry key value entries) := by
  induction entries with
  | nil => exact List.pairwise_singleton _ _
  | cons e rest ih =>
    obtain ⟨he, hrest⟩ := List.pairwise_cons.1 h
    unfold Protobuf.insertEntry
    split
    · rename_i hlt
      refine List.pairwise_cons.2 ⟨fun e' he' => ?_, h⟩
      rcases List.mem_cons.1 he' with rfl | he'
      · exact hlt
      · exact Scalar.lt_trans hlt (he e' he')
    · rename_i hlt
      split
      · rename_i hgt
        refine List.pairwise_cons.2
          ⟨fun e' he' => ?_, ih (fun e' he' => hes e' (.tail _ he')) hrest⟩
        rcases mem_of_mem_insertEntry he' with rfl | he'
        · exact hgt
        · exact he e' he'
      · -- the entry of the same key is replaced
        rename_i hgt
        refine List.pairwise_cons.2 ⟨fun e' he' => ?_, hrest⟩
        refine Scalar.lt_of_not_lt (hk.trans (hes e (.head _)).symm) ?_ ?_ (he e' he')
        · simpa using hlt
        · simpa using hgt

/-- An entry behind all keys goes to the end. -/
theorem insertEntry_of_forall_lt {key : Scalar} {value : ν} {entries : List (Scalar × ν)}
    (h : ∀ e ∈ entries, e.1.lt key = true) :
    insertEntry key value entries = entries ++ [(key, value)] := by
  induction entries with
  | nil => rfl
  | cons e rest ih =>
    have he := h e (.head _)
    rw [insertEntry, if_neg (by simp [Scalar.lt_asymm he]), if_pos he,
      ih fun e' he' => h e' (.tail _ he')]
    rfl

/-! ## Lookup -/

theorem lookup_insertEntry_self (key : Scalar) (value : ν) (entries : List (Scalar × ν)) :
    (insertEntry key value entries).lookup key = some value := by
  induction entries with
  | nil => exact List.lookup_cons_self
  | cons e rest ih =>
    rw [insertEntry]
    split
    · exact List.lookup_cons_self
    · split
      · rename_i hlt
        have hne : key ≠ e.1 := by
          rintro rfl
          rw [Scalar.lt_irrefl] at hlt
          cases hlt
        rw [List.lookup_cons, beq_false_of_ne hne]
        exact ih
      · exact List.lookup_cons_self

/-- What stands under other keys stays. -/
theorem lookup_insertEntry_of_ne {key other : Scalar} {value : ν} {entries : List (Scalar × ν)}
    (ho : key.kind.isOrdered = true) (hes : ∀ e ∈ entries, e.1.kind = key.kind)
    (hne : other ≠ key) : (insertEntry key value entries).lookup other = entries.lookup other := by
  have hhead (rest : List (Scalar × ν)) :
      ((key, value) :: rest).lookup other = rest.lookup other := by
    rw [List.lookup_cons, beq_false_of_ne hne]
  induction entries with
  | nil => exact hhead []
  | cons e rest ih =>
    obtain ⟨he, hes⟩ := List.forall_mem_cons.1 hes
    rw [insertEntry]
    split
    · exact hhead _
    · rename_i hlt
      split
      · rw [List.lookup_cons, List.lookup_cons, ih hes]
      · -- the key of the first entry is the one that is inserted
        rename_i hgt
        have heq : e.1 = key :=
          Scalar.eq_of_not_lt (he ▸ ho) he (by simpa using hgt) (by simpa using hlt)
        rw [hhead, List.lookup_cons, heq, beq_false_of_ne hne]

/-- Inserts entries one after the other. -/
def insertEntries (new : List (Scalar × ν)) (entries : List (Scalar × ν)) : List (Scalar × ν) :=
  new.foldl (fun entries e => insertEntry e.1 e.2 entries) entries

section

variable {kind : ScalarKind} {new entries : List (Scalar × ν)}
  (hnew : ∀ e ∈ new, e.1.kind = kind) (hes : ∀ e ∈ entries, e.1.kind = kind)

include hnew hes

theorem Ascending.insertEntries (h : Ascending entries) :
    Ascending (insertEntries new entries) := by
  induction new generalizing entries with
  | nil => exact h
  | cons e new ih =>
    obtain ⟨he, hnew⟩ := List.forall_mem_cons.1 hnew
    refine ih hnew (fun e' he' => ?_) (h.insertEntry he hes)
    rcases mem_of_mem_insertEntry he' with rfl | he'
    · exact he
    · exact hes e' he'

/-- Under a key stands the last value that was inserted under it, or the one that was there. -/
theorem lookup_insertEntries (ho : kind.isOrdered = true) (key : Scalar) :
    (Protobuf.insertEntries new entries).lookup key =
      (new.reverse.lookup key).or (entries.lookup key) := by
  induction new generalizing entries with
  | nil => rfl
  | cons e new ih =>
    obtain ⟨he, hnew⟩ := List.forall_mem_cons.1 hnew
    have hkinds : ∀ e' ∈ insertEntry e.1 e.2 entries, e'.1.kind = kind := by
      intro e' he'
      rcases mem_of_mem_insertEntry he' with rfl | he'
      · exact he
      · exact hes e' he'
    rw [Protobuf.insertEntries, List.foldl_cons]
    refine (ih hnew hkinds).trans ?_
    rw [List.reverse_cons, List.lookup_append, Option.or_assoc]
    congr 1
    by_cases hkey : key = e.1
    · rw [hkey, lookup_insertEntry_self, List.lookup_cons_self]
      rfl
    · rw [lookup_insertEntry_of_ne (he ▸ ho) (fun e' he' => (hes e' he').trans he.symm) hkey,
        List.lookup_cons, beq_false_of_ne hkey, List.lookup_nil, Option.none_or]

end

end Protobuf
