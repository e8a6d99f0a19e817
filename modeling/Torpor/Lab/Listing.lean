import Mathlib
import Torpor.Lab.Database

/-!
# Listing a Namespace

`list_keys` selects the keys of a namespace with `LIKE` and takes as many characters off each as
the prefix has; `read_key` looks up the prefix and the key. The two agree where `LIKE` selects
what begins with the prefix as it is written: not where the namespace has a wildcard or a letter
that another key has in the other case.

## Main results

* `listing_agrees_iff`: the tables on which the two agree, and the namespaces for which they agree
  on every table.
* `other_case_listed`: the key of a namespace is shown in the listing of another one.
-/

namespace Torpor.Lab

/-- Listing a namespace shows the keys that reading finds in it. -/
def ListingAgrees (db : Database) (ns : Text) : Prop :=
  ∀ key, key ∈ listKeys db (some ns) ↔ (readKey db key (some ns)).isSome

/-- The pattern of the keys of a namespace. -/
def nsPattern (ns : Text) : Text := ns ++ ['/'] ++ ['%']

/-- No wildcard and no letter of ASCII. -/
def Literal (ns : Text) : Prop := ∀ c ∈ ns, c ≠ '%' ∧ c ≠ '_' ∧ c.isAlpha = false

instance : DecidablePred Literal := fun ns =>
  inferInstanceAs (Decidable (∀ c ∈ ns, c ≠ '%' ∧ c ≠ '_' ∧ c.isAlpha = false))

/-! ### Patterns -/

/-- A character that one of the pattern stands for. -/
def Matches (c d : Char) : Prop := c = '%' ∨ c = '_' ∨ c.toLower = d.toLower

theorem like_percent (s : Text) : like ['%'] s = true := by
  simp only [like, if_true, List.any_eq_true]
  exact ⟨[], (List.mem_tails _ _).mpr (List.nil_suffix), rfl⟩

/-- A character to each of the pattern, and anything behind. -/
theorem like_of_forall₂ {p s : Text} (h : List.Forall₂ Matches p s) (t : Text) :
    like (p ++ ['%']) (s ++ t) = true := by
  induction h with
  | nil => exact like_percent t
  | @cons c d p s hmatch _ ih =>
      rw [List.cons_append, List.cons_append, like]
      split_ifs with hpercent
      · rw [List.any_eq_true]
        exact ⟨s ++ t, (List.mem_tails _ _).mpr (List.suffix_cons d _), ih⟩
      · rcases hmatch with hc | hc | hc
        · exact absurd hc hpercent
        · simp [hc, ih]
        · simp [hc, ih]

/-- What begins as the pattern is written is matched. -/
theorem like_of_prefix {p s : Text} (h : p <+: s) : like (p ++ ['%']) s = true := by
  obtain ⟨t, rfl⟩ := h
  exact like_of_forall₂ (List.forall₂_same.mpr fun _ _ => .inr (.inr rfl)) t

theorem eq_of_toLower_eq {c d : Char} (hc : c.isAlpha = false) (h : c.toLower = d.toLower) :
    c = d := by
  have hd : d.isAlpha = false := by rw [← Char.isAlpha_toLower_eq_isAlpha, ← h,
    Char.isAlpha_toLower_eq_isAlpha, hc]
  have hupper : ∀ {e : Char}, e.isAlpha = false → ¬e.isUpper := fun he hu => by
    simp [Char.isAlpha, hu] at he
  rwa [Char.toLower_eq_of_not_isUpper (hupper hc), Char.toLower_eq_of_not_isUpper (hupper hd)] at h

/-- Without wildcards and letters only what begins as the pattern is written is matched. -/
theorem prefix_of_like {p s : Text} (hp : Literal p) (h : like (p ++ ['%']) s = true) :
    p <+: s := by
  induction p generalizing s with
  | nil => exact List.nil_prefix
  | cons c p ih =>
      obtain ⟨hpercent, hunderscore, halpha⟩ := hp c (by simp)
      cases s with
      | nil => simp [like, hpercent] at h
      | cons d s =>
          rw [List.cons_append, like, if_neg hpercent] at h
          simp only [Bool.and_eq_true, Bool.or_eq_true, decide_eq_true_eq] at h
          obtain rfl := eq_of_toLower_eq halpha (h.1.resolve_left hunderscore)
          exact List.cons_prefix_cons.mpr ⟨rfl, ih (fun e he => hp e (by simp [he])) h.2⟩

/-- Another character that a wildcard or a letter stands for. -/
theorem exists_matches_ne {c : Char} (h : ¬(c ≠ '%' ∧ c ≠ '_' ∧ c.isAlpha = false)) :
    ∃ d, d ≠ c ∧ Matches c d := by
  by_cases hpercent : c = '%'
  · exact ⟨'7', by rw [hpercent]; decide, .inl hpercent⟩
  by_cases hunderscore : c = '_'
  · exact ⟨'7', by rw [hunderscore]; decide, .inr (.inl hunderscore)⟩
  have halpha : c.isAlpha = true := by simpa [hpercent, hunderscore] using h
  by_cases hupper : c.isUpper = true
  · refine ⟨c.toLower, fun heq => ?_, .inr (.inr (by simp))⟩
    have := Char.isUpper_toLower_eq_false c
    rw [heq, hupper] at this
    cases this
  · refine ⟨c.toUpper, fun heq => hupper ?_, .inr (.inr (by simp))⟩
    rw [← heq, Char.isUpper_toUpper_eq_isAlpha, halpha]

/-- Another text of the same length that the pattern matches. -/
theorem exists_forall₂_ne {p : Text} (h : ¬Literal p) :
    ∃ s, s ≠ p ∧ List.Forall₂ Matches p s := by
  simp only [Literal, not_forall] at h
  obtain ⟨c, hc, hwild⟩ := h
  obtain ⟨p, q, rfl⟩ := List.append_of_mem hc
  obtain ⟨d, hne, hmatch⟩ := exists_matches_ne hwild
  have hrefl : ∀ t : Text, List.Forall₂ Matches t t := fun t =>
    List.forall₂_same.mpr fun _ _ => .inr (.inr rfl)
  exact ⟨p ++ d :: q, by simpa using hne, List.rel_append (hrefl p) (.cons hmatch (hrefl q))⟩

/-! ### Listings -/

theorem mem_listKeys {db : Database} {ns key : Text} (hns : ns ≠ []) :
    key ∈ listKeys db (some ns) ↔ ∃ k ∈ db.memory.keys, like (nsPattern ns) k = true ∧
      k.drop (ns.length + 1) = key := by
  have hor : orNone (some ns) = some ns := by
    cases ns with
    | nil => exact absurd rfl hns
    | cons c cs => rfl
  simp only [listKeys, hor, nsPattern, List.mem_map, List.mem_filter, List.length_append,
    List.length_singleton, and_assoc]

theorem readKey_isSome {db : Database} {ns key : Text} (hns : ns ≠ []) :
    (readKey db key (some ns)).isSome ↔ ns ++ '/' :: key ∈ db.memory.keys := by
  have hkey : nsKey (some ns) key = ns ++ '/' :: key := by
    cases ns with
    | nil => exact absurd rfl hns
    | cons c cs => rfl
  rw [readKey, hkey, SortedMap.mem_keys]

/-- A key that reading finds is listed, whatever the namespace is. -/
theorem mem_listKeys_of_readKey {db : Database} {ns key : Text} (hns : ns ≠ [])
    (h : (readKey db key (some ns)).isSome) : key ∈ listKeys db (some ns) := by
  rw [readKey_isSome hns] at h
  have hpre : ns ++ '/' :: key = ns ++ ['/'] ++ key := by simp
  refine (mem_listKeys hns).mpr ⟨_, h, ?_, by rw [hpre, List.drop_left' (by simp)]⟩
  rw [hpre]
  exact like_of_prefix (List.prefix_append _ _)

/-- The keys that the pattern of a namespace selects begin with the prefix as it is written, or
what is left of them is also a key of the namespace. -/
def SelectsOwn (db : Database) (ns : Text) : Prop :=
  ∀ k ∈ db.memory.keys, like (nsPattern ns) k = true →
    ns ++ ['/'] <+: k ∨ ns ++ '/' :: k.drop (ns.length + 1) ∈ db.memory.keys

theorem listingAgrees_iff_selectsOwn {db : Database} {ns : Text} (hns : ns ≠ []) :
    ListingAgrees db ns ↔ SelectsOwn db ns := by
  constructor
  · intro h k hk hlike
    exact .inr ((readKey_isSome hns).mp ((h _).mp ((mem_listKeys hns).mpr ⟨k, hk, hlike, rfl⟩)))
  · intro h key
    refine ⟨fun hkey => ?_, mem_listKeys_of_readKey hns⟩
    obtain ⟨k, hk, hlike, rfl⟩ := (mem_listKeys hns).mp hkey
    rw [readKey_isSome hns]
    rcases h k hk hlike with hpre | hown
    · obtain ⟨t, rfl⟩ := hpre
      rw [List.drop_left' (by simp)]
      simpa using hk
    · exact hown

/-- The database with one key in its memory. -/
def oneKey (k : Text) : Database :=
  { Database.empty with memory := SortedMap.empty.put k ⟨[], 0, none⟩ }

theorem mem_keys_oneKey {k k' : Text} : k' ∈ (oneKey k).memory.keys ↔ k' = k := by
  rw [SortedMap.mem_keys, oneKey, SortedMap.get_put]
  split_ifs with h <;> simp [h]

/-- Listing and reading agree on a table exactly if what the pattern of the namespace selects is
the namespace's own, and they agree on every table exactly for a namespace without wildcards and
letters. -/
theorem listing_agrees_iff (ns : Text) (hns : ns ≠ []) :
    (∀ db, ListingAgrees db ns ↔ SelectsOwn db ns) ∧ ((∀ db, ListingAgrees db ns) ↔ Literal ns) := by
  refine ⟨fun db => listingAgrees_iff_selectsOwn hns, fun h => ?_, fun h db => ?_⟩
  · by_contra hwild
    obtain ⟨s, hne, hmatch⟩ := exists_forall₂_ne hwild
    have hlength : s.length = ns.length := hmatch.length_eq.symm
    have hslash : List.Forall₂ Matches (ns ++ ['/']) (s ++ ['/']) :=
      List.rel_append hmatch (.cons (.inr (.inr rfl)) .nil)
    have hlike : like (nsPattern ns) (s ++ ['/']) = true := by
      simpa [nsPattern] using like_of_forall₂ hslash []
    have hown := (listingAgrees_iff_selectsOwn hns).mp (h (oneKey (s ++ ['/']))) _
      (mem_keys_oneKey.mpr rfl) hlike
    rw [mem_keys_oneKey, List.drop_of_length_le (by simp [hlength])] at hown
    rcases hown with hpre | heq
    · have := hpre.eq_of_length (by simp [hlength])
      exact hne (List.append_cancel_right this).symm
    · exact hne (List.append_cancel_right heq).symm
  · refine (listingAgrees_iff_selectsOwn hns).mpr fun k _ hlike => .inl (prefix_of_like ?_ hlike)
    intro c hc
    rcases List.mem_append.mp hc with hc | hc
    · exact h c hc
    · rw [List.mem_singleton.mp hc]
      decide

theorem listing_agrees_digits :
    ListingAgrees (oneKey ['2', '0', '2', '6', '/', 'x']) ['2', '0', '2', '6'] :=
  (listing_agrees_iff ['2', '0', '2', '6'] (by simp)).2.mpr
    (by simp [Literal, Char.isAlpha, Char.isUpper, Char.isLower]) _

/-- A key of the namespace `A` is shown in the listing of the namespace `a`. -/
theorem other_case_listed : ¬ListingAgrees (oneKey ['A', '/', 'x']) ['a'] := by
  intro h
  have hlisted : ['x'] ∈ listKeys (oneKey ['A', '/', 'x']) (some ['a']) := by decide
  have hread := (h ['x']).mp hlisted
  rw [readKey_isSome (by decide), mem_keys_oneKey] at hread
  cases hread

end Torpor.Lab
