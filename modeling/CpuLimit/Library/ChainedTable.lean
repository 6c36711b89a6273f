import Mathlib.Data.List.Nodup
import Mathlib.Data.List.Basic
import Mathlib.Logic.Function.Basic

/-!
# Hash tables with chaining

A table maps a bucket index to a chain of records, allocated on first use. The
key of a record is a parameter: a client that stores pointers passes the
function that reads the key through the pointer. `WellPlaced` says that each
record sits in the bucket of its key and that no chain holds a key twice. Under
it the table is a finite map, and every operation has one equation.
-/
namespace CpuLimit.Library.ChainedTable

variable {ι κ ρ : Type*}

/-- `none` marks a bucket that was never allocated. -/
abbrev Table (ι ρ : Type*) := ι → Option (List ρ)

def empty : Table ι ρ := fun _ => none

def bucket (t : Table ι ρ) (i : ι) : List ρ := (t i).getD []

@[simp] theorem bucket_empty (i : ι) : bucket (empty : Table ι ρ) i = [] := rfl

/-- The record is on some chain. -/
def Stored (t : Table ι ρ) (r : ρ) : Prop := ∃ i, r ∈ bucket t i

section Operations

variable [DecidableEq κ] (key : ρ → κ)

/-- The first record of bucket `i` with key `k`. -/
def find (t : Table ι ρ) (i : ι) (k : κ) : Option ρ :=
  (bucket t i).find? fun r => key r = k

/-- Only the keys of the records in the bucket matter. -/
theorem find_congr {key' : ρ → κ} {t : Table ι ρ} {i : ι} {k : κ}
    (h : ∀ r ∈ bucket t i, key r = key' r) : find key t i k = find key' t i k := by
  unfold find
  generalize bucket t i = l at h
  induction l with
  | nil => rfl
  | cons r l ih =>
    have hr : key r = key' r := h r (by simp)
    have hl := ih fun x hx => h x (by simp [hx])
    simp only [List.find?_cons, hr, hl]

variable [DecidableEq ι]

def add (t : Table ι ρ) (i : ι) (r : ρ) : Table ι ρ :=
  Function.update t i (some (bucket t i ++ [r]))

/-- Remove the first record of bucket `i` with key `k`. -/
def del (t : Table ι ρ) (i : ι) (k : κ) : Table ι ρ :=
  Function.update t i ((t i).map fun l => l.eraseP fun r => key r = k)

@[simp] theorem bucket_add (t : Table ι ρ) (i j : ι) (r : ρ) :
    bucket (add t i r) j = if j = i then bucket t i ++ [r] else bucket t j := by
  by_cases h : j = i
  · subst h; simp [add, bucket]
  · simp [add, bucket, h]

@[simp] theorem bucket_del (t : Table ι ρ) (i j : ι) (k : κ) :
    bucket (del key t i k) j =
      if j = i then (bucket t i).eraseP fun r => key r = k else bucket t j := by
  by_cases h : j = i
  · subst h
    cases ht : t j <;> simp [del, bucket, ht]
  · simp [del, bucket, h]

theorem stored_add (t : Table ι ρ) (i : ι) (r x : ρ) :
    Stored (add t i r) x ↔ x = r ∨ Stored t x := by
  simp only [Stored, bucket_add]
  constructor
  · rintro ⟨j, hj⟩
    split_ifs at hj with h
    · rcases List.mem_append.mp hj with hx | hx
      · exact Or.inr ⟨i, hx⟩
      · exact Or.inl (List.mem_singleton.mp hx)
    · exact Or.inr ⟨j, hj⟩
  · rintro (rfl | ⟨j, hj⟩)
    · exact ⟨i, by simp⟩
    · refine ⟨j, ?_⟩
      split_ifs with h
      · subst h; exact List.mem_append_left _ hj
      · exact hj

theorem stored_of_del {t : Table ι ρ} {i : ι} {k : κ} {x : ρ}
    (h : Stored (del key t i k) x) : Stored t x := by
  obtain ⟨j, hj⟩ := h
  rw [bucket_del] at hj
  split_ifs at hj with hji
  · exact ⟨i, List.mem_of_mem_eraseP hj⟩
  · exact ⟨j, hj⟩

end Operations

/-- Every record is in the bucket of its key, and no chain holds a key twice. -/
structure WellPlaced (key : ρ → κ) (hash : κ → ι) (t : Table ι ρ) : Prop where
  placed : ∀ i, ∀ r ∈ bucket t i, hash (key r) = i
  distinct : ∀ i, ((bucket t i).map key).Nodup

section Keys

variable {key : ρ → κ} {hash : κ → ι} {t : Table ι ρ}

theorem wellPlaced_empty : WellPlaced key hash (empty : Table ι ρ) :=
  ⟨by simp, by simp⟩

theorem WellPlaced.congr {key' : ρ → κ} (h : WellPlaced key hash t)
    (hk : ∀ r, Stored t r → key r = key' r) : WellPlaced key' hash t where
  placed i r hr := by rw [← hk r ⟨i, hr⟩]; exact h.placed i r hr
  distinct i := by
    rw [← List.map_congr_left (fun r hr => hk r ⟨i, hr⟩)]
    exact h.distinct i

theorem WellPlaced.mem_bucket (h : WellPlaced key hash t) {r : ρ} (hr : Stored t r) :
    r ∈ bucket t (hash (key r)) := by
  obtain ⟨i, hi⟩ := hr
  rw [h.placed i r hi]
  exact hi

/-- A key is stored at most once in the whole table. -/
theorem WellPlaced.unique (h : WellPlaced key hash t) {r x : ρ} (hr : Stored t r)
    (hx : Stored t x) (he : key r = key x) : r = x := by
  have hrb := h.mem_bucket hr
  have hxb := h.mem_bucket hx
  rw [← he] at hxb
  exact List.inj_on_of_nodup_map (h.distinct _) hrb hxb he

/-- The chains of distinct buckets, put together, hold every key once. -/
theorem WellPlaced.nodup_flatMap (h : WellPlaced key hash t) {indices : List ι}
    (hi : indices.Nodup) : ((indices.flatMap (bucket t)).map key).Nodup := by
  rw [List.map_flatMap, List.nodup_flatMap]
  refine ⟨fun i _ => h.distinct i, hi.imp ?_⟩
  intro i j hij
  show List.Disjoint _ _
  rw [List.disjoint_left]
  intro k hki hkj
  obtain ⟨r, hr, rfl⟩ := List.mem_map.mp hki
  obtain ⟨x, hx, hxr⟩ := List.mem_map.mp hkj
  exact hij (by rw [← h.placed i r hr, ← h.placed j x hx, hxr])

variable [DecidableEq κ]

theorem find_eq_none_iff (i : ι) (k : κ) :
    find key t i k = none ↔ ∀ r ∈ bucket t i, key r ≠ k := by
  simp [find]

/-- In a chain that holds a key once, the erasure is a filter. -/
theorem eraseP_eq_filter {l : List ρ} (hnd : (l.map key).Nodup) (k : κ) :
    (l.eraseP fun r => key r = k) = l.filter fun r => !decide (key r = k) := by
  induction l with
  | nil => rfl
  | cons r l ih =>
    rw [List.map_cons, List.nodup_cons] at hnd
    by_cases hr : key r = k
    · have hrest : ∀ x ∈ l, (!decide (key x = k)) = true := fun x hx => by
        simp only [Bool.not_eq_true', decide_eq_false_iff_not]
        rintro rfl
        exact hnd.1 (hr ▸ List.mem_map_of_mem hx)
      rw [List.eraseP_cons_of_pos (by simpa using hr), List.filter_cons_of_neg (by simpa using hr),
        List.filter_eq_self.mpr hrest]
    · rw [List.eraseP_cons_of_neg (by simpa using hr), List.filter_cons_of_pos (by simpa using hr),
        ih hnd.2]

/-- A chain that holds a key once does not hold it after the erasure. -/
theorem key_ne_of_mem_eraseP {l : List ρ} (hnd : (l.map key).Nodup) {x : ρ} {k : κ}
    (hx : x ∈ l.eraseP fun r => key r = k) : key x ≠ k := by
  rw [eraseP_eq_filter hnd] at hx
  simpa using (List.mem_filter.mp hx).2

theorem WellPlaced.find_eq_some_iff (h : WellPlaced key hash t) (k : κ) (r : ρ) :
    find key t (hash k) k = some r ↔ Stored t r ∧ key r = k := by
  constructor
  · intro hf
    have hk : key r = k := by simpa using List.find?_some hf
    exact ⟨⟨_, List.mem_of_find?_eq_some hf⟩, hk⟩
  · rintro ⟨hs, rfl⟩
    cases hf : find key t (hash (key r)) (key r) with
    | none => exact absurd rfl ((find_eq_none_iff _ _).mp hf r (h.mem_bucket hs))
    | some x =>
      have hx : key x = key r := by simpa using List.find?_some hf
      rw [h.unique ⟨_, List.mem_of_find?_eq_some hf⟩ hs hx]

theorem WellPlaced.find_eq_none_iff_stored (h : WellPlaced key hash t) (k : κ) :
    find key t (hash k) k = none ↔ ∀ r, Stored t r → key r ≠ k := by
  rw [find_eq_none_iff]
  constructor
  · rintro hn r hs rfl
    exact hn r (h.mem_bucket hs) rfl
  · exact fun hn r hr => hn r ⟨_, hr⟩

variable [DecidableEq ι]

/-- Adding under a key that is not stored keeps the table well placed. -/
theorem WellPlaced.add (h : WellPlaced key hash t) {r : ρ}
    (hn : find key t (hash (key r)) (key r) = none) :
    WellPlaced key hash (ChainedTable.add t (hash (key r)) r) where
  placed i x hx := by
    rw [bucket_add] at hx
    split_ifs at hx with hi
    · rcases List.mem_append.mp hx with hx | hx
      · rw [hi]; exact h.placed _ x hx
      · rw [hi, List.mem_singleton.mp hx]
    · exact h.placed i x hx
  distinct i := by
    rw [bucket_add]
    split_ifs with hi
    · rw [List.map_append, List.map_singleton, List.nodup_append]
      refine ⟨h.distinct _, List.nodup_singleton _, ?_⟩
      intro k hk k' hk' he
      obtain ⟨x, hx, rfl⟩ := List.mem_map.mp hk
      exact (find_eq_none_iff _ _).mp hn x hx (he.trans (List.mem_singleton.mp hk'))
    · exact h.distinct i

theorem WellPlaced.find_add (h : WellPlaced key hash t) {r : ρ}
    (hn : find key t (hash (key r)) (key r) = none) (k : κ) :
    find key (ChainedTable.add t (hash (key r)) r) (hash k) k =
      if key r = k then some r else find key t (hash k) k := by
  split_ifs with hk
  · subst hk
    exact ((h.add hn).find_eq_some_iff _ _).mpr ⟨(stored_add t _ r r).mpr (Or.inl rfl), rfl⟩
  · apply Option.ext
    intro x
    rw [(h.add hn).find_eq_some_iff, h.find_eq_some_iff, stored_add]
    constructor
    · rintro ⟨rfl | hx, hxk⟩
      · exact absurd hxk hk
      · exact ⟨hx, hxk⟩
    · exact fun ⟨hx, hxk⟩ => ⟨Or.inr hx, hxk⟩

theorem WellPlaced.del (h : WellPlaced key hash t) (i : ι) (k : κ) :
    WellPlaced key hash (ChainedTable.del key t i k) where
  placed j x hx := by
    rw [bucket_del] at hx
    split_ifs at hx with hji
    · rw [hji]; exact h.placed _ x (List.mem_of_mem_eraseP hx)
    · exact h.placed j x hx
  distinct j := by
    rw [bucket_del]
    split_ifs
    · exact (h.distinct i).sublist (List.eraseP_sublist.map key)
    · exact h.distinct j

/-- Deleting a key filters every chain. -/
theorem WellPlaced.del_eq (h : WellPlaced key hash t) (k : κ) :
    ChainedTable.del key t (hash k) k =
      fun i => (t i).map fun l => l.filter fun r => !decide (key r = k) := by
  funext i
  rw [ChainedTable.del, Function.update_apply]
  have hplaced := h.placed i
  have hdistinct := h.distinct i
  rw [bucket] at hplaced hdistinct
  cases hl : t i with
  | none =>
    split_ifs with hi
    · rw [← hi, hl]
      rfl
    · rfl
  | some l =>
    rw [hl, Option.getD_some] at hplaced hdistinct
    split_ifs with hi
    · rw [← hi, hl, Option.map_some, Option.map_some, eraseP_eq_filter hdistinct]
    · have hkeep : ∀ r ∈ l, (!decide (key r = k)) = true := fun r hr => by
        simp only [Bool.not_eq_true', decide_eq_false_iff_not]
        rintro rfl
        exact hi (hplaced r hr).symm
      rw [Option.map_some, List.filter_eq_self.mpr hkeep]

/-- Deleting a key removes its record and no other. -/
theorem WellPlaced.stored_del (h : WellPlaced key hash t) (k : κ) (x : ρ) :
    Stored (ChainedTable.del key t (hash k) k) x ↔ Stored t x ∧ key x ≠ k := by
  constructor
  · intro hx
    refine ⟨stored_of_del key hx, ?_⟩
    rintro rfl
    have hb := (h.del (hash (key x)) (key x)).mem_bucket hx
    rw [bucket_del, if_pos rfl] at hb
    exact key_ne_of_mem_eraseP (h.distinct _) hb rfl
  · rintro ⟨hx, hk⟩
    refine ⟨hash (key x), ?_⟩
    have hb := h.mem_bucket hx
    rw [bucket_del]
    split_ifs with he
    · rw [he] at hb
      exact (List.mem_eraseP_of_neg (by simpa using hk)).mpr hb
    · exact hb

theorem WellPlaced.find_del (h : WellPlaced key hash t) (k k' : κ) :
    find key (ChainedTable.del key t (hash k) k) (hash k') k' =
      if k = k' then none else find key t (hash k') k' := by
  split_ifs with hk
  · subst hk
    rw [(h.del _ _).find_eq_none_iff_stored]
    exact fun r hr => ((h.stored_del k r).mp hr).2
  · apply Option.ext
    intro x
    rw [(h.del _ _).find_eq_some_iff, h.find_eq_some_iff, h.stored_del]
    constructor
    · exact fun ⟨⟨hx, _⟩, hxk⟩ => ⟨hx, hxk⟩
    · rintro ⟨hx, hxk⟩
      exact ⟨⟨hx, fun he => hk (he.symm.trans hxk)⟩, hxk⟩

end Keys

/-! ## The flat list

A table holds the records of one list. Duplicate keys are allowed: the order of
the list decides which record is found. -/

section Flat

variable {key : ρ → κ} {hash : κ → ι} {t : Table ι ρ} {l : List ρ} [DecidableEq ι]

/-- Each bucket is the part of the list that belongs there, in the order of the list. -/
def Holds (key : ρ → κ) (hash : κ → ι) (t : Table ι ρ) (l : List ρ) : Prop :=
  ∀ i, bucket t i = l.filter fun r => hash (key r) = i

theorem holds_empty : Holds key hash (empty : Table ι ρ) [] := fun _ => rfl

theorem Holds.add (h : Holds key hash t l) (r : ρ) :
    Holds key hash (ChainedTable.add t (hash (key r)) r) (l ++ [r]) := by
  intro i
  rw [bucket_add, List.filter_append]
  split_ifs with hi
  · subst hi
    simp [h (hash (key r))]
  · have hne : hash (key r) ≠ i := fun he => hi he.symm
    simp [h i, hne]

variable [DecidableEq κ]

/-- The first record with the key comes first in its bucket as well. -/
theorem Holds.find_eq (h : Holds key hash t l) (k : κ) :
    find key t (hash k) k = l.find? fun r => key r = k := by
  rw [find, h, List.find?_filter]
  congr 1
  funext r
  by_cases hr : key r = k
  · simp [hr]
  · simp [hr]

theorem Holds.del (h : Holds key hash t l) (k : κ) :
    Holds key hash (ChainedTable.del key t (hash k) k) (l.eraseP fun r => key r = k) := by
  intro i
  rw [bucket_del]
  split_ifs with hi
  · subst hi
    rw [h, List.eraseP_filter]
    congr 2
    funext r
    by_cases hr : key r = k
    · simp [hr]
    · simp [hr]
  · rw [h i]
    rcases List.exists_or_eq_self_of_eraseP (fun r => decide (key r = k)) l with
      hsame | ⟨r, before, after, -, hr, rfl, herase⟩
    · rw [hsame]
    · have hne : hash (key r) ≠ i := by
        rw [decide_eq_true_eq] at hr
        rw [hr]
        exact fun he => hi he.symm
      rw [herase, List.filter_append, List.filter_append,
        List.filter_cons_of_neg (by simpa using hne)]

omit [DecidableEq ι] in
/-- In a list without repeated keys a key finds its record. -/
theorem find?_key_eq_some_iff {l : List ρ} (h : (l.map key).Nodup) {r : ρ} {k : κ} :
    (l.find? fun x => key x = k) = some r ↔ r ∈ l ∧ key r = k := by
  constructor
  · intro hfind
    exact ⟨List.mem_of_find?_eq_some hfind, by simpa using List.find?_some hfind⟩
  · rintro ⟨hr, rfl⟩
    cases hfind : l.find? fun x => key x = key r with
    | none => exact absurd (decide_eq_true rfl) (List.find?_eq_none.mp hfind r hr)
    | some x =>
      have hkey : key x = key r := by simpa using List.find?_some hfind
      rw [List.inj_on_of_nodup_map h (List.mem_of_find?_eq_some hfind) hr hkey]

omit [DecidableEq ι] in
/-- Removing the first record of one key is not seen under another. -/
theorem find?_eraseP_of_ne {k k' : κ} (hk : k' ≠ k) (l : List ρ) :
    (l.eraseP fun r => key r = k).find? (fun r => key r = k') = l.find? fun r => key r = k' := by
  rcases List.exists_or_eq_self_of_eraseP (fun r => decide (key r = k)) l with
    hsame | ⟨r, before, after, -, hr, rfl, herase⟩
  · rw [hsame]
  · have hne : key r ≠ k' := by
      rw [decide_eq_true_eq] at hr
      rw [hr]
      exact hk.symm
    rw [herase, List.find?_append, List.find?_append, List.find?_cons_of_neg (by simpa using hne)]

/-- A list with distinct keys is a finite map. -/
structure Represents (key : ρ → κ) (l : List ρ) (m : κ → Option ρ) : Prop where
  nodup : (l.map key).Nodup
  find_eq : ∀ k, (l.find? fun r => key r = k) = m k

variable {m : κ → Option ρ}

omit [DecidableEq ι] in
theorem represents_nil : Represents key ([] : List ρ) fun _ => none :=
  ⟨List.nodup_nil, fun _ => rfl⟩

omit [DecidableEq ι] in
theorem Represents.key_ne (h : Represents key l m) {k : κ} (hk : m k = none) :
    ∀ r ∈ l, key r ≠ k := by
  rw [← h.find_eq] at hk
  simpa using hk

omit [DecidableEq ι] in
/-- A record is appended under a key that the map does not have. -/
theorem Represents.append (h : Represents key l m) {r : ρ} (hr : m (key r) = none) :
    Represents key (l ++ [r]) (Function.update m (key r) (some r)) where
  nodup := by
    rw [List.map_append, List.map_singleton, List.nodup_append]
    refine ⟨h.nodup, List.nodup_singleton _, ?_⟩
    intro k hk k' hk' he
    obtain ⟨x, hx, rfl⟩ := List.mem_map.mp hk
    exact h.key_ne hr x hx (he.trans (List.mem_singleton.mp hk'))
  find_eq k := by
    rw [List.find?_append, h.find_eq, Function.update_apply]
    split_ifs with hk
    · subst hk
      simp [hr]
    · have hne : key r ≠ k := fun he => hk he.symm
      simp [hne]

omit [DecidableEq ι] in
theorem Represents.eraseP (h : Represents key l m) (k : κ) :
    Represents key (l.eraseP fun r => key r = k) (Function.update m k none) where
  nodup := h.nodup.sublist (List.eraseP_sublist.map key)
  find_eq k' := by
    rw [Function.update_apply]
    split_ifs with hk
    · subst hk
      rw [List.find?_eq_none]
      intro r hr
      simpa using key_ne_of_mem_eraseP h.nodup hr
    · rw [← h.find_eq]
      exact find?_eraseP_of_ne hk l

end Flat

end CpuLimit.Library.ChainedTable
