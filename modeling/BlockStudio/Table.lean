/-!
Tables from names to values. A table keeps its entries in ascending order of the name with each name
once, so its list of entries is its only form: two tables with the same look-ups are equal.
-/
namespace BlockStudio

structure Table (α : Type) where
  entries : List (String × α)
  ascending : entries.Pairwise fun a b => a.1 < b.1
deriving DecidableEq

namespace Table

variable {α : Type}

def empty : Table α := ⟨[], .nil⟩

instance : Inhabited (Table α) := ⟨empty⟩

/-- Puts an entry at the place of its name, replacing an entry of that name. -/
def place (key : String) (value : α) : List (String × α) → List (String × α)
  | [] => [(key, value)]
  | e :: rest =>
    if key < e.1 then (key, value) :: e :: rest
    else if key = e.1 then (key, value) :: rest
    else e :: place key value rest

theorem mem_place {key : String} {value : α} {es : List (String × α)} {e : String × α}
    (h : e ∈ place key value es) : e = (key, value) ∨ e ∈ es := by
  induction es with
  | nil => simpa [place] using h
  | cons d ds ih =>
    unfold place at h
    split at h
    · simpa using h
    · split at h
      · rcases List.mem_cons.1 h with h | h
        · exact .inl h
        · exact .inr (List.mem_cons_of_mem _ h)
      · rcases List.mem_cons.1 h with h | h
        · exact .inr (h ▸ List.mem_cons_self)
        · exact (ih h).imp_right (List.mem_cons_of_mem _)

theorem lt_of_not_lt {a b : String} (h : ¬a < b) (hne : a ≠ b) : b < a := by
  apply String.not_le.1
  intro hle
  exact hne (String.le_antisymm hle (String.not_lt.1 h))

theorem place_ascending (key : String) (value : α) {es : List (String × α)}
    (h : es.Pairwise fun a b => a.1 < b.1) :
    (place key value es).Pairwise fun a b => a.1 < b.1 := by
  induction es with
  | nil => simp [place]
  | cons d ds ih =>
    obtain ⟨hd, hds⟩ := List.pairwise_cons.1 h
    unfold place
    split
    · rename_i hlt
      refine List.pairwise_cons.2 ⟨?_, h⟩
      intro e he
      rcases List.mem_cons.1 he with rfl | he
      · exact hlt
      · exact String.lt_trans hlt (hd e he)
    · rename_i hlt
      split
      · rename_i heq
        refine List.pairwise_cons.2 ⟨fun e he => ?_, hds⟩
        exact heq ▸ hd e he
      · rename_i hne
        refine List.pairwise_cons.2 ⟨fun e he => ?_, ih hds⟩
        rcases mem_place he with rfl | he
        · exact lt_of_not_lt hlt hne
        · exact hd e he

def insert (t : Table α) (key : String) (value : α) : Table α :=
  ⟨place key value t.entries, place_ascending key value t.ascending⟩

/-- The value of the first entry with the name. -/
def search (key : String) : List (String × α) → Option α
  | [] => none
  | (k, value) :: rest => if key = k then some value else search key rest

def get? (t : Table α) (key : String) : Option α := search key t.entries

def contains (t : Table α) (key : String) : Bool := (t.get? key).isSome

def erase (t : Table α) (key : String) : Table α :=
  ⟨t.entries.filter (·.1 ≠ key), t.ascending.filter _⟩

/-- The names in ascending order. -/
def keys (t : Table α) : List String := t.entries.map (·.1)

def size (t : Table α) : Nat := t.entries.length

/-- The table that a list of entries builds from the left; the last entry of a name stays. -/
def ofList (es : List (String × α)) : Table α :=
  es.foldl (fun t e => t.insert e.1 e.2) empty

/-- The table with `value` under `key`, unless the table has the name. -/
def insertNew (t : Table α) (key : String) (value : α) : Table α :=
  if t.contains key then t else t.insert key value

def modify (t : Table α) (key : String) (f : α → α) : Table α :=
  match t.get? key with
  | none => t
  | some value => t.insert key (f value)

/-- Changes every value, which keeps the names. -/
def mapValues {β : Type} (t : Table α) (f : String → α → β) : Table β :=
  ⟨t.entries.map fun e => (e.1, f e.1 e.2), by
    rw [List.pairwise_map]
    exact t.ascending⟩

@[simp] theorem get?_empty (key : String) : (empty : Table α).get? key = none := rfl

theorem search_place (key k : String) (value : α) (es : List (String × α)) :
    search k (place key value es) = if k = key then some value else search k es := by
  induction es with
  | nil => simp [place, search]
  | cons d ds ih => grind [place, search]

theorem get?_insert (t : Table α) (key k : String) (value : α) :
    (t.insert key value).get? k = if k = key then some value else t.get? k :=
  search_place key k value t.entries

@[simp] theorem get?_insert_self (t : Table α) (key : String) (value : α) :
    (t.insert key value).get? key = some value := by
  simp [get?_insert]

theorem get?_insert_of_ne (t : Table α) {key k : String} (value : α) (h : k ≠ key) :
    (t.insert key value).get? k = t.get? k := by
  simp [get?_insert, h]

@[simp] theorem contains_insert (t : Table α) (key k : String) (value : α) :
    (t.insert key value).contains k = (decide (k = key) || t.contains k) := by
  simp only [contains, get?_insert]
  split <;> simp [*]

theorem insertNew_of_contains {t : Table α} {key : String} (value : α) (h : t.contains key = true) :
    t.insertNew key value = t := by
  rw [insertNew, if_pos h]

@[simp] theorem contains_insertNew (t : Table α) (key k : String) (value : α) :
    (t.insertNew key value).contains k = (decide (k = key) || t.contains k) := by
  unfold insertNew
  split
  · rename_i hkey
    by_cases hk : k = key
    · simp [hk, hkey]
    · simp [hk]
  · exact contains_insert t key k value

/-- A table has the names of the entries that build it. -/
theorem contains_ofList {es : List (String × α)} {e : String × α} (he : e ∈ es) :
    (ofList es).contains e.1 = true := by
  have hfold : ∀ (es : List (String × α)) (t : Table α) (key : String),
      t.contains key = true ∨ key ∈ es.map (·.1) →
      (es.foldl (fun t e => t.insert e.1 e.2) t).contains key = true := by
    intro es
    induction es with
    | nil => simp
    | cons d ds ih =>
      intro t key h
      apply ih
      simp only [contains_insert, Bool.or_eq_true, decide_eq_true_eq]
      grind
  exact hfold es empty e.1 (.inr (List.mem_map_of_mem he))

/-- A new entry makes the list longer by one, wherever its place is. -/
theorem place_perm {key : String} {es : List (String × α)} (value : α) (h : key ∉ es.map (·.1)) :
    (place key value es).Perm ((key, value) :: es) := by
  induction es with
  | nil => exact .refl _
  | cons d ds ih =>
    simp only [List.map_cons, List.mem_cons, not_or] at h
    unfold place
    split
    · exact .refl _
    · rw [if_neg h.1]
      exact ((ih h.2).cons d).trans (.swap _ _ _)

theorem entries_ofList_perm {es : List (String × α)} (h : (es.map (·.1)).Nodup) :
    (ofList es).entries.Perm es := by
  have hfold : ∀ (es : List (String × α)) (t : Table α), ((t.entries ++ es).map (·.1)).Nodup →
      (es.foldl (fun t e => t.insert e.1 e.2) t).entries.Perm (t.entries ++ es) := by
    intro es
    induction es with
    | nil =>
      intro t _
      rw [List.append_nil]
      exact .refl _
    | cons d ds ih =>
      intro t ht
      have hmiddle : (t.entries ++ d :: ds).Perm (d :: t.entries ++ ds) := List.perm_middle
      have hnames := (hmiddle.map (·.1)).nodup_iff.1 ht
      have hnew : d.1 ∉ t.entries.map (·.1) := by
        rw [List.cons_append, List.map_cons, List.nodup_cons, List.map_append] at hnames
        exact fun hd => hnames.1 (List.mem_append_left _ hd)
      have hplace : (t.insert d.1 d.2).entries.Perm (d :: t.entries) := place_perm d.2 hnew
      have htail :=
        ih (t.insert d.1 d.2) ((((hplace.append_right ds).map (·.1)).nodup_iff).2 hnames)
      exact htail.trans ((hplace.append_right ds).trans hmiddle.symm)
  exact hfold es empty h

/-- A table built from entries in any order has them in ascending order. -/
theorem entries_ofList_of_perm {es ds : List (String × α)} (names : List String)
    (hperm : es.Perm ds) (hnames : ds.map (·.1) = names) (h : names.Pairwise (· < ·)) :
    (ofList es).entries = ds := by
  have hascending : ds.Pairwise fun a b => a.1 < b.1 := List.pairwise_map.1 (hnames ▸ h)
  have hnodup : (ds.map (·.1)).Nodup := by
    rw [hnames]
    refine h.imp ?_
    rintro name _ hlt rfl
    exact String.lt_irrefl name hlt
  have hentries := (entries_ofList_perm ((hperm.map (·.1)).nodup_iff.2 hnodup)).trans hperm
  exact hentries.eq_of_pairwise (fun _ _ _ _ hlt hgt => absurd hgt (String.lt_asymm hlt))
    (ofList es).ascending
    hascending

/-- Entries in ascending order are the entries of the table they build. -/
theorem entries_ofList {es : List (String × α)} (h : es.Pairwise fun a b => a.1 < b.1) :
    (ofList es).entries = es :=
  entries_ofList_of_perm (es.map (·.1)) (.refl es) rfl (List.pairwise_map.2 h)

@[simp] theorem ofList_entries (t : Table α) : ofList t.entries = t := by
  have hentries := entries_ofList t.ascending
  cases t
  cases hofList : ofList _ with
  | mk es _ => simp_all

theorem search_filter_ne (key k : String) (es : List (String × α)) :
    search k (es.filter (·.1 ≠ key)) = if k = key then none else search k es := by
  induction es with
  | nil => simp [search]
  | cons d ds ih => grind [search]

theorem get?_erase (t : Table α) (key k : String) :
    (t.erase key).get? k = if k = key then none else t.get? k :=
  search_filter_ne key k t.entries

end Table

end BlockStudio
