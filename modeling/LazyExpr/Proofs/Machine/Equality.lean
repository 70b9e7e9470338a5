import Mathlib
import LazyExpr.Machine.Operation

namespace LazyExpr

/-- The names of a record stand in increasing order, as `Value.ofFields` puts them. -/
def Fields.IsSorted (fields : Fields) : Prop := fields.Pairwise fun a b => a.1 < b.1

theorem Fields.mem_insert {name : String} {value : Value} {fields : Fields} {field : String × Value}
    (member : field ∈ Fields.insert name value fields) : field = (name, value) ∨ field ∈ fields := by
  induction fields with
  | nil => exact .inl (List.mem_singleton.mp member)
  | cons first rest ih =>
    unfold Fields.insert at member
    split at member
    · exact List.mem_cons.mp member
    · split at member
      · exact (List.mem_cons.mp member).imp_right (List.mem_cons_of_mem _)
      · rcases List.mem_cons.mp member with rfl | behind
        · exact .inr List.mem_cons_self
        · exact (ih behind).imp_right (List.mem_cons_of_mem _)

theorem Fields.IsSorted.insert {fields : Fields} (sorted : fields.IsSorted) (name : String) (value : Value) :
    (Fields.insert name value fields).IsSorted := by
  induction fields with
  | nil => exact List.pairwise_singleton _ _
  | cons first rest ih =>
    obtain ⟨least, sortedRest⟩ := List.pairwise_cons.mp sorted
    unfold Fields.insert
    split
    · rename_i below
      refine List.pairwise_cons.mpr ⟨fun field member => ?_, sorted⟩
      rcases List.mem_cons.mp member with rfl | behind
      · exact below
      · exact below.trans (least field behind)
    · rename_i notBelow
      split
      · rename_i same
        exact List.pairwise_cons.mpr ⟨fun field behind => same ▸ least field behind, sortedRest⟩
      · rename_i other
        have above : first.1 < name := lt_of_le_of_ne (not_lt.mp notBelow) (Ne.symm other)
        refine List.pairwise_cons.mpr ⟨fun field member => ?_, ih sortedRest⟩
        rcases Fields.mem_insert member with rfl | behind
        · exact above
        · exact least field behind

/-- The fields of the records that are built are sorted. -/
theorem Value.ofFields_sorted (fields : Fields) :
    ∃ sorted : Fields, Value.ofFields fields = .record sorted ∧ sorted.IsSorted := by
  refine ⟨_, rfl, ?_⟩
  suffices each : ∀ built : Fields, built.IsSorted →
      (fields.foldl (fun sorted field => Fields.insert field.1 field.2 sorted) built).IsSorted from each [] .nil
  induction fields with
  | nil => exact fun _ sorted => sorted
  | cons field rest ih => exact fun _ sorted => ih _ (sorted.insert field.1 field.2)

namespace Value

/-- There is no double in the value, at no depth. -/
inductive FloatFree : Value → Prop
  | null : FloatFree .null
  | undefined : FloatFree .undefined
  | bool (b : Bool) : FloatFree (.bool b)
  | int (n : Word) : FloatFree (.int n)
  | string (s : String) : FloatFree (.string s)
  | list {items : List Value} : (∀ item ∈ items, FloatFree item) → FloatFree (.list items)
  | record {fields : Fields} : (∀ field ∈ fields, FloatFree field.2) → FloatFree (.record fields)

/-- The operator `==` holds of these values. -/
def Equal (a b : Value) : Prop := Operator.equal.applyBinary a b = .ok (.bool true)

/-- One of the values is `null` and the other one is `undefined`. -/
def Mixed (a b : Value) : Prop := a = .null ∧ b = .undefined ∨ a = .undefined ∧ b = .null

theorem sameItems_iff {as : List Value} (each : ∀ a ∈ as, ∀ b, same a b = true ↔ a = b) (bs : List Value) :
    sameItems as bs = true ↔ as = bs := by
  induction as generalizing bs with
  | nil => cases bs <;> simp [sameItems]
  | cons a as ih =>
    obtain ⟨here, others⟩ := List.forall_mem_cons.mp each
    cases bs with
    | nil => simp [sameItems]
    | cons b bs => rw [sameItems, Bool.and_eq_true, here, ih others, List.cons.injEq]

theorem sameFields_iff {as : Fields} (each : ∀ a ∈ as, ∀ b, same a.2 b = true ↔ a.2 = b) (bs : Fields) :
    sameFields as bs = true ↔ as = bs := by
  induction as generalizing bs with
  | nil => cases bs <;> simp [sameFields]
  | cons a as ih =>
    obtain ⟨here, others⟩ := List.forall_mem_cons.mp each
    cases bs with
    | nil => simp [sameFields]
    | cons b bs =>
      rw [sameFields, Bool.and_eq_true, Bool.and_eq_true, here, ih others, List.cons.injEq, beq_iff_eq,
        Prod.ext_iff]

/-- Without doubles, values of the same structure are the same value. -/
theorem same_iff {a : Value} (free : a.FloatFree) (b : Value) : same a b = true ↔ a = b := by
  induction free generalizing b with
  | list _ ih => cases b <;> simp [same, sameItems_iff ih]
  | record _ ih => cases b <;> simp [same, sameFields_iff ih]
  | _ => cases b <;> simp [same]

theorem equal_iff_equals {a b : Value} : Equal a b ↔ a.equals b = true := by
  simp [Equal, Operator.applyBinary]

/-- Without doubles only the two nullish values are equal and not the same. -/
theorem equal_iff {a b : Value} (free : a.FloatFree) (free' : b.FloatFree) :
    Equal a b ↔ a = b ∨ a.isNullish = true ∧ b.isNullish = true := by
  have structural : (a == b) = true ↔ a = b := same_iff free b
  rw [equal_iff_equals]
  cases free <;> cases free' <;> simp_all [equals, isNullish, asNumber?]

theorem equal_equivalence : Equivalence fun a b : { v : Value // v.FloatFree } => Equal a.1 b.1 where
  refl a := (equal_iff a.2 a.2).mpr (.inl rfl)
  symm := by
    intro a b equal
    rw [equal_iff b.2 a.2]
    rcases (equal_iff a.2 b.2).mp equal with same | ⟨nullish, nullish'⟩
    · exact .inl same.symm
    · exact .inr ⟨nullish', nullish⟩
  trans := by
    intro a b c equal equal'
    rw [equal_iff a.2 c.2]
    rcases (equal_iff a.2 b.2).mp equal with same | ⟨nullish, nullish'⟩
    · rw [same]
      exact (equal_iff b.2 c.2).mp equal'
    · rcases (equal_iff b.2 c.2).mp equal' with same | ⟨_, nullish''⟩
      · exact .inr ⟨nullish, same ▸ nullish'⟩
      · exact .inr ⟨nullish, nullish''⟩

/-- The answer of `!=` is the negative of that of `==`. -/
theorem different_negates (a b : Value) :
    ∃ equal : Bool, Operator.equal.applyBinary a b = .ok (.bool equal) ∧
      Operator.different.applyBinary a b = .ok (.bool !equal) :=
  ⟨a.equals b, rfl, rfl⟩

theorem not_mixed_self (a : Value) : ¬ Mixed a a := by
  rintro (⟨rfl, same⟩ | ⟨rfl, same⟩)
  · cases same
  · cases same

/-- Values that are equal are the same unless they are the two nullish ones. -/
theorem eq_iff_not_mixed {a b : Value} (free : a.FloatFree) (free' : b.FloatFree) (equal : Equal a b) :
    a = b ↔ ¬ Mixed a b := by
  constructor
  · rintro rfl
    exact not_mixed_self a
  · intro apart
    rcases (equal_iff free free').mp equal with same | ⟨nullish, nullish'⟩
    · exact same
    · cases a <;> cases b <;> simp_all [isNullish, Mixed]

theorem items_eq_iff {as bs : List Value} (free : ∀ a ∈ as, a.FloatFree) (free' : ∀ b ∈ bs, b.FloatFree)
    (each : List.Forall₂ Equal as bs) : as = bs ↔ List.Forall₂ (fun a b => ¬ Mixed a b) as bs := by
  induction each with
  | nil => exact iff_of_true rfl .nil
  | cons equal _ ih =>
    obtain ⟨here, others⟩ := List.forall_mem_cons.mp free
    obtain ⟨here', others'⟩ := List.forall_mem_cons.mp free'
    rw [List.cons.injEq, List.forall₂_cons, eq_iff_not_mixed here here' equal, ih others others']

/-- Lists are compared by the structure of their items, for which the two nullish values are different. -/
theorem equal_list_iff {as bs : List Value} (free : ∀ a ∈ as, a.FloatFree) (free' : ∀ b ∈ bs, b.FloatFree)
    (each : List.Forall₂ Equal as bs) :
    Equal (.list as) (.list bs) ↔ List.Forall₂ (fun a b => ¬ Mixed a b) as bs := by
  rw [equal_iff (.list free) (.list free'), ← items_eq_iff free free' each]
  simp [isNullish]

/-- Fields with the same names in the same order are the same if the values of each name are. -/
theorem fields_eq {as bs : Fields} (names : as.map (·.1) = bs.map (·.1))
    (values : ∀ name a b, (name, a) ∈ as → (name, b) ∈ bs → a = b) : as = bs := by
  induction as generalizing bs with
  | nil => exact (List.map_eq_nil_iff.mp names.symm).symm
  | cons a as ih =>
    cases bs with
    | nil => cases names
    | cons b bs =>
      obtain ⟨name, names⟩ := List.cons.inj names
      have inside : (a.1, b.2) ∈ b :: bs := List.mem_cons.mpr (.inl (Prod.ext name rfl))
      have value : a.2 = b.2 := values a.1 a.2 b.2 List.mem_cons_self inside
      have others : as = bs := ih names fun name a b member member' =>
        values name a b (List.mem_cons_of_mem _ member) (List.mem_cons_of_mem _ member')
      rw [Prod.ext name value, others]

theorem names_eq {as bs : Fields} (sorted : as.IsSorted) (sorted' : bs.IsSorted)
    (names : ∀ name, name ∈ as.map (·.1) ↔ name ∈ bs.map (·.1)) : as.map (·.1) = bs.map (·.1) :=
  (List.pairwise_map.mpr sorted).eq_of_mem_iff (List.pairwise_map.mpr sorted') names

/-- Records are compared by the structure of their fields. -/
theorem equal_record_iff {as bs : Fields} (sorted : as.IsSorted) (sorted' : bs.IsSorted)
    (free : ∀ a ∈ as, a.2.FloatFree) (free' : ∀ b ∈ bs, b.2.FloatFree)
    (names : ∀ name, name ∈ as.map (·.1) ↔ name ∈ bs.map (·.1))
    (each : ∀ name a b, (name, a) ∈ as → (name, b) ∈ bs → Equal a b) :
    Equal (.record as) (.record bs) ↔ ∀ name a b, (name, a) ∈ as → (name, b) ∈ bs → ¬ Mixed a b := by
  have whole : Equal (.record as) (.record bs) ↔ as = bs := by
    rw [equal_iff (.record free) (.record free')]
    simp [isNullish]
  rw [whole]
  constructor
  · rintro rfl name a b member member'
    have distinct : (as.map (·.1)).Nodup := (List.pairwise_map.mpr sorted).imp fun below => ne_of_lt below
    have same : (name, a) = (name, b) := List.inj_on_of_nodup_map distinct member member' rfl
    cases same
    exact not_mixed_self a
  · intro apart
    refine fields_eq (names_eq sorted sorted' names) fun name a b member member' => ?_
    exact (eq_iff_not_mixed (free _ member) (free' _ member') (each name a b member member')).mpr
      (apart name a b member member')

/-- Between values without doubles `==` is an equivalence, and `!=` is its negative. Lists of equal items, and
records with the same names and equal fields, are equal exactly if nowhere among these items or fields `null` on one
side meets `undefined` on the other. The records are those whose fields are sorted, as the fields of every record
that is built are. -/
theorem equality_laws :
    Equivalence (fun a b : { v : Value // v.FloatFree } => Equal a.1 b.1) ∧
    (∀ a b : Value, ∃ equal : Bool, Operator.equal.applyBinary a b = .ok (.bool equal) ∧
      Operator.different.applyBinary a b = .ok (.bool !equal)) ∧
    (∀ as bs : List Value, (∀ a ∈ as, a.FloatFree) → (∀ b ∈ bs, b.FloatFree) → List.Forall₂ Equal as bs →
      (Equal (.list as) (.list bs) ↔ List.Forall₂ (fun a b => ¬ Mixed a b) as bs)) ∧
    (∀ fields : Fields, ∃ sorted : Fields, ofFields fields = .record sorted ∧ sorted.IsSorted) ∧
    ∀ as bs : Fields, as.IsSorted → bs.IsSorted → (∀ a ∈ as, a.2.FloatFree) → (∀ b ∈ bs, b.2.FloatFree) →
      (∀ name, name ∈ as.map (·.1) ↔ name ∈ bs.map (·.1)) →
      (∀ name a b, (name, a) ∈ as → (name, b) ∈ bs → Equal a b) →
      (Equal (.record as) (.record bs) ↔ ∀ name a b, (name, a) ∈ as → (name, b) ∈ bs → ¬ Mixed a b) := by
  refine ⟨equal_equivalence, different_negates, ?_, ofFields_sorted, ?_⟩
  · intro as bs free free' each
    exact equal_list_iff free free' each
  · intro as bs sorted sorted' free free' names each
    exact equal_record_iff sorted sorted' free free' names each

theorem equality_laws_nullish :
    let as : List Value := [.null, .list [.int 1]]
    let bs : List Value := [.undefined, .list [.int 1]]
    let fs : Fields := [("a", .bool true), ("b", .null)]
    let gs : Fields := [("a", .bool true), ("b", .undefined)]
    ((∀ a ∈ as, a.FloatFree) ∧ (∀ b ∈ bs, b.FloatFree) ∧ List.Forall₂ Equal as bs ∧
      (Equal (.list as) (.list bs) ↔ List.Forall₂ (fun a b => ¬ Mixed a b) as bs)) ∧
    fs.IsSorted ∧ gs.IsSorted ∧ (∀ a ∈ fs, a.2.FloatFree) ∧ (∀ b ∈ gs, b.2.FloatFree) ∧
      (∀ name, name ∈ fs.map (·.1) ↔ name ∈ gs.map (·.1)) ∧
      (∀ name a b, (name, a) ∈ fs → (name, b) ∈ gs → Equal a b) ∧
      (Equal (.record fs) (.record gs) ↔ ∀ name a b, (name, a) ∈ fs → (name, b) ∈ gs → ¬ Mixed a b) := by
  intro as bs fs gs
  have one : (Value.list [.int 1]).FloatFree := .list (List.forall_mem_singleton.mpr (.int 1))
  have free : ∀ a ∈ as, a.FloatFree :=
    List.forall_mem_cons.mpr ⟨.null, List.forall_mem_singleton.mpr one⟩
  have free' : ∀ b ∈ bs, b.FloatFree :=
    List.forall_mem_cons.mpr ⟨.undefined, List.forall_mem_singleton.mpr one⟩
  have each : List.Forall₂ Equal as bs := .cons rfl (.cons rfl .nil)
  have sorted : fs.IsSorted := List.pairwise_pair.mpr (by decide +kernel)
  have sorted' : gs.IsSorted := List.pairwise_pair.mpr (by decide +kernel)
  have freeFields : ∀ a ∈ fs, a.2.FloatFree :=
    List.forall_mem_cons.mpr ⟨.bool true, List.forall_mem_singleton.mpr .null⟩
  have freeFields' : ∀ b ∈ gs, b.2.FloatFree :=
    List.forall_mem_cons.mpr ⟨.bool true, List.forall_mem_singleton.mpr .undefined⟩
  have names : ∀ name, name ∈ fs.map (·.1) ↔ name ∈ gs.map (·.1) := fun _ => Iff.rfl
  have eachField : ∀ name a b, (name, a) ∈ fs → (name, b) ∈ gs → Equal a b := by
    intro name a b member member'
    simp only [fs, gs, List.mem_cons, List.not_mem_nil, or_false, Prod.mk.injEq] at member member'
    rcases member with ⟨rfl, rfl⟩ | ⟨rfl, rfl⟩ <;> rcases member' with ⟨same, rfl⟩ | ⟨same, rfl⟩
    · rfl
    · exact absurd same (by decide +kernel)
    · exact absurd same (by decide +kernel)
    · rfl
  obtain ⟨_, _, lists, _, records⟩ := equality_laws
  exact ⟨⟨free, free', each, lists as bs free free' each⟩, sorted, sorted', freeFields, freeFields', names,
    eachField, records fs gs sorted sorted' freeFields freeFields' names eachField⟩

/-- The two nullish values are equal, and lists of them are not. -/
theorem not_congruent_nullish :
    Value.null.FloatFree ∧ Value.undefined.FloatFree ∧ List.Forall₂ Equal [.null] [.undefined] ∧
      ¬ Equal (.list [.null]) (.list [.undefined]) := by
  refine ⟨.null, .undefined, .cons rfl .nil, fun equal => ?_⟩
  have answer : Operator.equal.applyBinary (.list [.null]) (.list [.undefined]) = .ok (.bool false) := rfl
  rw [Equal, answer] at equal
  cases equal

end Value

end LazyExpr
