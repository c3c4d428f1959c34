import Maml.Proofs.ObjectKeys

/-! Keys that an object had before.

1. A name is looked up by the first key that has it (`View.Object.keyOf?_eq_find?`). So a repeated
   key stands behind the one that its name is looked up by
   (`View.exists_first_of_mem_repeatedKeys`).
2. The rule goes through the keys with the names that it has seen. These are those of the keys in
   front, each with the first that has it (`Validation.Sees`), so the keys that it tells are those
   that are repeated (`Validation.Sees.map_duplicatesAmong`).
3. In the order of ranges the keys of an object stay as they are (`Parse.sorted_duplicatesAmong`),
   and what is told of the keys of another stands elsewhere (`Parse.filter_duplicates`).
4. So the keys that a check warns of agree with looking up their names
   (`repeated_keys_agree_with_lookup`). -/
namespace Maml

namespace View

/-! ## Looking names up -/

theorem name?_beq_some (m : KeyValue) (name : Text) :
    (KeyValue.name? m == some name) = (KeyValue.key? m).any (Key.name · == name) := by
  rw [KeyValue.name?]
  cases KeyValue.key? m <;> rfl

/-- A name is looked up by the first key that has it. -/
theorem Object.keyOf?_eq_find? (v : Object) (name : Text) :
    Object.keyOf? v name = (Object.keys v).find? (Key.name · == name) := by
  rw [Object.keyOf?, Object.get?, Object.keys]
  induction Object.keyValues v with
  | nil => rfl
  | cons m ms ih =>
    rw [List.find?_cons, name?_beq_some]
    cases hkey : KeyValue.key? m with
    | none => rw [List.filterMap_cons_none hkey, ← ih]; rfl
    | some k =>
      rw [List.filterMap_cons_some hkey, List.find?_cons]
      cases hname : Key.name k == name with
      | true => simpa [hname] using hkey
      | false => simpa [hname] using ih

/-- In front of a repeated key is the first one with its name. -/
theorem exists_first_of_mem_repeatedKeys {ks : List Key} {k : Key} (h : k ∈ repeatedKeys ks) :
    ∃ front first between back, ks = front ++ first :: (between ++ k :: back) ∧
      (∀ k' ∈ front, Key.name k' ≠ Key.name k) ∧ Key.name first = Key.name k ∧
      ks.find? (Key.name · == Key.name k) = some first := by
  obtain ⟨⟨k', i⟩, hmem, rfl⟩ := List.mem_map.mp h
  obtain ⟨hindex, hany⟩ := List.mem_filter.mp hmem
  have hk : ks[i]? = some k' := List.mem_zipIdx_iff_getElem?.mp hindex
  obtain ⟨first, hfirst⟩ : ∃ first, (ks.take i).find? (Key.name · == Key.name k') = some first :=
    Option.isSome_iff_exists.mp (by rwa [List.find?_isSome, ← List.any_eq_true])
  obtain ⟨hname, front, between, hsplit, hfront⟩ := List.find?_eq_some_iff_append.mp hfirst
  obtain ⟨hi, hget⟩ := List.getElem?_eq_some_iff.mp hk
  have hks : ks = ks.take i ++ k' :: ks.drop (i + 1) := by
    rw [← hget, ← List.drop_eq_getElem_cons hi, List.take_append_drop]
  refine ⟨front, first, between, ks.drop (i + 1), ?_, ?_, by simpa using hname, ?_⟩
  · rw [hsplit, List.append_assoc, List.cons_append] at hks
    exact hks
  · intro k'' hk''
    simpa using hfront k'' hk''
  · rw [hks, List.find?_append, hfirst]
    rfl

/-! ## Repeated keys one by one -/

/-- Those keys, behind the ones in front, of which one anywhere in front has the same name. -/
def repeatedAfter (front ks : List Key) : List Key :=
  ((ks.zipIdx front.length).filter fun (k, i) =>
    ((front ++ ks).take i).any (Key.name · == Key.name k)).map (·.1)

theorem repeatedAfter_cons (front : List Key) (k : Key) (ks : List Key) :
    repeatedAfter front (k :: ks) =
      (if front.any (Key.name · == Key.name k) then [k] else []) ++
        repeatedAfter (front ++ [k]) ks := by
  have hfront : (front ++ k :: ks).take front.length = front := List.take_left
  have hmore : front ++ k :: ks = front ++ [k] ++ ks := by simp
  rw [repeatedAfter, repeatedAfter, List.zipIdx_cons, List.filter_cons]
  simp only [hfront, ← hmore, List.length_append, List.length_singleton]
  split <;> rfl

end View

namespace Validation

open View

/-- What is told of a repeated key: where it stands, how severe that is, and the key that had its
name first. -/
def told (d : Diagnostic) : Span × Severity × Option Span := (d.range, d.severity, d.related)

/-- Whether the names that were seen are those of the keys in front, each with the first key that
has it. -/
def Sees (seen : List (Text × Span)) (front : List Key) : Prop :=
  ∀ name, seen.lookup name = (front.find? (Key.name · == name)).map View.range

namespace Sees
variable {seen : List (Text × Span)} {front : List Key} {k : Key}

theorem nil : Sees [] [] := fun _ => rfl

theorem keep (h : Sees seen front) (hk : (seen.lookup (Key.name k)).isSome = true) :
    Sees seen (front ++ [k]) := by
  intro name
  rw [h, List.find?_append]
  cases hfind : front.find? (Key.name · == name) with
  | some first => rfl
  | none =>
    have hne : (Key.name k == name) = false := by
      apply beq_false_of_ne
      rintro rfl
      rw [h, hfind] at hk
      exact Bool.false_ne_true hk
    simp [hne]

theorem concat (h : Sees seen front) (hk : seen.lookup (Key.name k) = none) :
    Sees ((Key.name k, k.range) :: seen) (front ++ [k]) := by
  intro name
  rw [List.find?_append]
  by_cases hname : name = Key.name k
  · subst hname
    rw [h, Option.map_eq_none_iff] at hk
    simp [hk]
  · have hne : (name == Key.name k) = false := beq_false_of_ne hname
    have hne' : (Key.name k == name) = false := beq_false_of_ne (Ne.symm hname)
    rw [List.lookup_cons, hne, List.find?_cons, hne', List.find?_nil, Option.or_none]
    exact h name

theorem any_eq_isSome (h : Sees seen front) :
    front.any (Key.name · == Key.name k) = (seen.lookup (Key.name k)).isSome := by
  rw [h, Option.isSome_map, Bool.eq_iff_iff, List.any_eq_true, List.find?_isSome]

/-- The keys that are told are those that are repeated, each with the first that has its name. -/
theorem map_duplicatesAmong (h : Sees seen front) (ks : List Key) :
    (duplicatesAmong seen ks).map told = (repeatedAfter front ks).map fun k =>
      (k.range, .warning, ((front ++ ks).find? (Key.name · == Key.name k)).map View.range) := by
  induction ks generalizing seen front with
  | nil => rfl
  | cons k ks ih =>
    have hmore : front ++ k :: ks = front ++ [k] ++ ks := by simp
    rw [duplicatesAmong, repeatedAfter_cons, List.map_append, hmore, h.any_eq_isSome]
    cases hlookup : seen.lookup (Key.name k) with
    | some first =>
      have hfirst : ((front ++ [k] ++ ks).find? (Key.name · == Key.name k)).map View.range =
          some first := by
        rw [← hlookup, h, List.append_assoc, List.find?_append]
        rw [h] at hlookup
        obtain ⟨first', hfind, -⟩ := Option.map_eq_some_iff.mp hlookup
        rw [hfind]
        rfl
      simp only [Option.isSome_some, if_true, List.map_cons, List.map_nil, List.singleton_append,
        hfirst, ih (h.keep (by rw [hlookup]; rfl))]
      rfl
    | none =>
      simp only [Option.isSome_none, Bool.false_eq_true, if_false, List.map_nil, List.nil_append,
        ih (h.concat hlookup)]

end Sees

theorem map_range_duplicatesAmong_sublist (seen : List (Text × Span)) (ks : List Key) :
    ((duplicatesAmong seen ks).map Diagnostic.range).Sublist (ks.map View.range) := by
  induction ks generalizing seen with
  | nil => exact List.Sublist.refl _
  | cons k ks ih =>
    rw [duplicatesAmong]
    split
    · exact (ih seen).cons_cons _
    · exact (ih _).cons _

end Validation

/-! ## Objects of a document -/

namespace Parse
variable {source : Text} {object : View.Object}

open View

theorem mem_viewsOf_keys {s : Site} (ho : object ∈ s.viewsOf .object) {k : Key}
    (hk : k ∈ Object.keys object) : k ∈ s.viewsOf .key := by
  obtain ⟨m, hm, hkey⟩ := List.mem_filterMap.mp hk
  exact mem_viewsOf_of_first? (mem_viewsOf_keyValues ho hm) hkey

theorem sorted_duplicatesAmong (h : object ∈ (Site.root (parse source).tree).viewsOf .object) :
    SortedByRange Diagnostic.range (Validation.duplicatesAmong [] (Object.keys object)) := by
  have hkeys : ((Object.keys object).map View.range).Pairwise
      fun s t => s.sortsBefore t = true := by
    refine List.pairwise_map.mpr ((pairwise_keys h).imp fun {k k'} hle => ?_)
    have hk : k.range.start ≤ k.range.stop := Nat.le_add_right _ _
    have hk' : k'.range.start ≤ k'.range.stop := Nat.le_add_right _ _
    rw [Span.sortsBefore_iff]
    omega
  exact List.pairwise_map.mp
    (hkeys.sublist (Validation.map_range_duplicatesAmong_sublist [] (Object.keys object)))

theorem exists_key_of_mem_duplicatesAmong {d : Diagnostic} {seen : List (Text × Span)}
    {ks : List Key} (hd : d ∈ Validation.duplicatesAmong seen ks) : ∃ k ∈ ks, k.range = d.range :=
  List.mem_map.mp ((Validation.map_range_duplicatesAmong_sublist seen ks).subset
    (List.mem_map_of_mem hd))

/-- What is told of the keys of an object is told at no key of another. -/
theorem filter_duplicates (h : object ∈ (Site.root (parse source).tree).viewsOf .object) :
    (((Site.root (parse source).tree).viewsOf .object).flatMap fun object' =>
      Validation.duplicatesAmong [] (Object.keys object')).filter
        (fun d => (Object.keys object).any (·.range == d.range)) =
      Validation.duplicatesAmong [] (Object.keys object) := by
  have hpairwise := pairwise_objects source
  obtain ⟨front, back, hsplit⟩ := List.mem_iff_append.mp h
  rw [hsplit, List.pairwise_append, List.pairwise_cons] at hpairwise
  obtain ⟨-, ⟨hback, -⟩, hfront⟩ := hpairwise
  -- nothing is told of another object where a key of this one stands
  have hother {objects : List Object} (hapart : ∀ object' ∈ objects, ∀ k ∈ Object.keys object,
      ∀ k' ∈ Object.keys object', k.range ≠ k'.range) :
      (objects.flatMap fun object' =>
        Validation.duplicatesAmong [] (Object.keys object')).filter
          (fun d => (Object.keys object).any (·.range == d.range)) = [] := by
    rw [List.filter_eq_nil_iff]
    intro d hd hany
    obtain ⟨object', hobject', hd⟩ := List.mem_flatMap.mp hd
    obtain ⟨k, hk, hrange⟩ := List.any_eq_true.mp hany
    obtain ⟨k', hk', hrange'⟩ := exists_key_of_mem_duplicatesAmong hd
    exact hapart object' hobject' k hk k' hk' ((eq_of_beq hrange).trans hrange'.symm)
  have hself : (Validation.duplicatesAmong [] (Object.keys object)).filter
      (fun d => (Object.keys object).any (·.range == d.range)) =
        Validation.duplicatesAmong [] (Object.keys object) := by
    rw [List.filter_eq_self]
    intro d hd
    obtain ⟨k, hk, hrange⟩ := exists_key_of_mem_duplicatesAmong hd
    exact List.any_eq_true.mpr ⟨k, hk, beq_iff_eq.mpr hrange⟩
  rw [hsplit, List.flatMap_append, List.flatMap_cons, List.filter_append, List.filter_append,
    hother fun object' hobject' k hk k' hk' heq =>
      hfront object' hobject' object List.mem_cons_self k' hk' k hk heq.symm,
    hother hback, hself, List.nil_append, List.append_nil]

theorem filter_duplicateKey_check (o : ValidationOptions) (source : Text) :
    (check o source).filter (·.category == .duplicateKey) = sortByRange Diagnostic.range
      (if o.duplicateKeys then
        ((Site.root (parse source).tree).viewsOf .object).flatMap fun object =>
          Validation.duplicatesAmong [] (Object.keys object)
      else []) := by
  rw [check, filter_sortByRange, List.filter_append, filter_diagnostics_of_rule rfl source,
    List.nil_append, filter_duplicateKey_validate]

theorem duplicates_eq (o : ValidationOptions)
    (h : object ∈ (Site.root (parse source).tree).viewsOf .object) :
    Object.duplicates object o source = if o.duplicateKeys then
      Validation.duplicatesAmong [] (Object.keys object) else [] := by
  have hfilter : Object.duplicates object o source =
      ((check o source).filter (·.category == .duplicateKey)).filter
        fun d => (Object.keys object).any (·.range == d.range) := by
    rw [List.filter_filter]
    exact List.filter_congr fun d _ => Bool.and_comm _ _
  rw [hfilter, filter_duplicateKey_check, filter_sortByRange]
  split
  · rw [filter_duplicates h, sortByRange_of_pairwise (sorted_duplicatesAmong h)]
  · rfl

theorem exists_object_of_mem_check {o : ValidationOptions} {d : Diagnostic}
    (hd : d ∈ check o source) (hcategory : d.category = .duplicateKey) :
    ∃ object ∈ (Site.root (parse source).tree).viewsOf .object,
      d ∈ Object.duplicates object o source := by
  have hmem : d ∈ (check o source).filter (·.category == .duplicateKey) :=
    List.mem_filter.mpr ⟨hd, beq_iff_eq.mpr hcategory⟩
  rw [filter_duplicateKey_check, mem_sortByRange] at hmem
  split at hmem
  · obtain ⟨object, hobject, hmem⟩ := List.mem_flatMap.mp hmem
    obtain ⟨k, hk, hrange⟩ := exists_key_of_mem_duplicatesAmong hmem
    refine ⟨object, hobject, List.mem_filter.mpr ⟨hd, ?_⟩⟩
    rw [hcategory, BEq.rfl, Bool.true_and]
    exact List.any_eq_true.mpr ⟨k, hk, beq_iff_eq.mpr hrange⟩
  · exact absurd hmem List.not_mem_nil

end Parse

open View

/-- A check warns of an object's keys that are repeated, and of no others: in order, each once and
where it stands, with the key that its name is looked up by, which is the first with that name. What
it warns of is always a key of an object, so it is none that is no key of a member, be it incomplete
or skipped. -/
theorem repeated_keys_agree_with_lookup (o : ValidationOptions) (source : Text) :
    let root := Site.root (parse source).tree
    (∀ object ∈ root.viewsOf .object,
      (Object.duplicates object o source).map Validation.told =
        (if o.duplicateKeys then (repeatedKeys (Object.keys object)).map fun k =>
          (k.range, .warning, (Object.keyOf? object (Key.name k)).map View.range)
        else []) ∧
      ∀ k ∈ repeatedKeys (Object.keys object), ∃ front first between back,
        Object.keys object = front ++ first :: (between ++ k :: back) ∧
        (∀ k' ∈ front, Key.name k' ≠ Key.name k) ∧ Key.name first = Key.name k ∧
        Object.keyOf? object (Key.name k) = some first) ∧
    (∀ d ∈ check o source, d.category = .duplicateKey →
      ∃ object ∈ root.viewsOf .object, d ∈ Object.duplicates object o source) ∧
    ∀ k ∈ root.viewsOf .key, (∀ object ∈ root.viewsOf .object, k ∉ Object.keys object) →
      ∀ d ∈ check o source, d.category = .duplicateKey → d.range ≠ k.range := by
  refine ⟨fun object hobject => ⟨?_, fun k hk => ?_⟩, fun d => Parse.exists_object_of_mem_check,
    fun k hk hnone d hd hcategory hrange => ?_⟩
  · rw [Parse.duplicates_eq o hobject]
    split
    · rw [Validation.Sees.nil.map_duplicatesAmong]
      simp only [Object.keyOf?_eq_find?]
      rfl
    · rfl
  · rw [Object.keyOf?_eq_find?]
    exact exists_first_of_mem_repeatedKeys hk
  · obtain ⟨object, hobject, hd⟩ := Parse.exists_object_of_mem_check hd hcategory
    have hany := (List.mem_filter.mp hd).2
    rw [Bool.and_eq_true, List.any_eq_true] at hany
    obtain ⟨-, k', hk', hrange'⟩ := hany
    have hkey := Parse.mem_viewsOf_keys hobject hk'
    obtain rfl := Parse.key_eq_of_range_eq hkey hk ((eq_of_beq hrange').trans hrange)
    exact hnone object hobject hk'

/-- In `{a:1,"a":2,a}` the quoted key is told, with the bare one that it repeats. The last key has
no value and is not told. -/
theorem repeated_keys_in_unfinished_object :
    let source : Text := ['{', 'a', ':', '1', ',', '"', 'a', '"', ':', '2', ',', 'a', '}']
    let root := Site.root (parse source).tree
    ∃ object ∈ root.viewsOf .object,
      (Object.duplicates object .default source).map Validation.told =
        [(⟨5, 8⟩, .warning, some ⟨1, 2⟩)] ∧
      (∃ k ∈ repeatedKeys (Object.keys object),
        ∃ first ∈ Object.keys object, Object.keyOf? object (Key.name k) = some first) ∧
      (∃ d ∈ check .default source, d.category = .duplicateKey ∧
        ∃ object ∈ root.viewsOf .object, d ∈ Object.duplicates object .default source) ∧
      ∃ k ∈ root.viewsOf .key, k.range = ⟨11, 12⟩ ∧
        ∀ d ∈ check .default source, d.category = .duplicateKey → d.range ≠ k.range := by
  intro source root
  obtain ⟨hobjects, hall, hnone⟩ := repeated_keys_agree_with_lookup .default source
  let object := (root.viewsOf .object).get ⟨0, by decide +kernel⟩
  have hobject : object ∈ root.viewsOf .object := List.get_mem ..
  obtain ⟨htold, hfirst⟩ := hobjects object hobject
  refine ⟨object, hobject, ?_, ?_, ?_, ?_⟩
  · rw [htold]
    decide +kernel
  · have hk : (repeatedKeys (Object.keys object)).get ⟨0, by decide +kernel⟩ ∈
        repeatedKeys (Object.keys object) := List.get_mem ..
    obtain ⟨front, first, between, back, hkeys, -, -, hlookup⟩ := hfirst _ hk
    exact ⟨_, hk, first, by rw [hkeys]; simp, hlookup⟩
  · have hd : (check .default source).get ⟨0, by decide +kernel⟩ ∈ check .default source :=
      List.get_mem ..
    have hcategory : ((check .default source).get ⟨0, by decide +kernel⟩).category =
      .duplicateKey := by decide +kernel
    exact ⟨_, hd, hcategory, hall _ hd hcategory⟩
  · have hk : (root.viewsOf .key).get ⟨2, by decide +kernel⟩ ∈ root.viewsOf .key := List.get_mem ..
    refine ⟨_, hk, by decide +kernel, hnone _ hk fun object hobject hkey => ?_⟩
    have hapart : ∀ object ∈ root.viewsOf .object, ∀ k ∈ Object.keys object,
        k.range ≠ ((root.viewsOf .key).get ⟨2, by decide +kernel⟩).range := by decide +kernel
    exact hapart object hobject _ hkey rfl

end Maml
