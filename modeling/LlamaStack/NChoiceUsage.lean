import LlamaStack.GoJsonExact
import LlamaStack.NChoices

/-!
# The merged usage

The usage of several answers is merged object by object, in place. What stands at
each path of the merged usage, by what stands there in the answers: a sum that does
not depend on their order.
-/
namespace NChoiceUsage

open GoBytes GoFloat64 GoJson GoMap NChoices

/-! ## Kinds and totals -/

/-- What stands at a path of nested objects; a number by its units. -/
inductive Kind where
  | null
  | num (units : Int)
  | overflow
  | object
  | other
  deriving DecidableEq

def amount : Option Kind → Int
  | some (.num v) => v
  | _ => 0

def isNum : Option Kind → Bool
  | some (.num _) => true
  | _ => false

/-- What answers come to that have these at one path: the sum of their numbers, an
object, null where nothing else stands, or nothing. -/
def total (ks : List (Option Kind)) : Option Kind :=
  if ks.any isNum then some (.num (ks.map amount).sum)
  else if some .object ∈ ks then some .object
  else if some .null ∈ ks then some .null
  else none

/-- The values that are not null are all numbers, or all objects. -/
def Uniform (ks : List (Option Kind)) : Prop :=
  (∀ k ∈ ks, k = none ∨ k = some .null ∨ ∃ v, k = some (.num v)) ∨
    ∀ k ∈ ks, k = none ∨ k = some .null ∨ k = some .object

theorem Uniform.known {ks : List (Option Kind)} (h : Uniform ks) {k : Kind} (hk : some k ∈ ks) :
    k = .null ∨ (∃ v, k = .num v) ∨ k = .object := by
  cases h with
  | inl h =>
    have hk := h _ hk
    simp only [reduceCtorEq, false_or, Option.some.injEq] at hk
    exact hk.imp_right .inl
  | inr h =>
    have hk := h _ hk
    simp only [reduceCtorEq, false_or, Option.some.injEq] at hk
    exact hk.imp_right .inr

theorem Uniform.no_object {ks : List (Option Kind)} (h : Uniform ks) {v : Int} (hv : some (.num v) ∈ ks) :
    some .object ∉ ks := by
  intro ho
  cases h with
  | inl h => simpa using h _ ho
  | inr h => simpa using h _ hv

theorem Uniform.no_num {ks : List (Option Kind)} (h : Uniform ks) (ho : some .object ∈ ks) :
    ∀ k ∈ ks, isNum k = false := by
  intro k hk
  cases h with
  | inl h => simpa using h _ ho
  | inr h => rcases h k hk with rfl | rfl | rfl <;> rfl

/-- What one more answer makes of the value at a path. -/
def combine : Option Kind → Option Kind → Option Kind
  | old, none => old
  | none, some .null => some .null
  | some k, some .null => some k
  | some (.num a), some (.num b) => some (.num (a + b))
  | _, some k => some k

/-- The total does not depend on the order. -/
theorem total_perm {ks ks' : List (Option Kind)} (h : ks.Perm ks') : total ks = total ks' := by
  have hany : ks.any isNum = ks'.any isNum := by
    rw [Bool.eq_iff_iff, List.any_eq_true, List.any_eq_true]
    simp only [h.mem_iff]
  have hsum := (h.map amount).sum_eq
  unfold total
  simp only [hany, hsum, h.mem_iff]

theorem amount_sum_of_no_num {ks : List (Option Kind)} (h : ks.any isNum = false) : (ks.map amount).sum = 0 := by
  have hzero : ∀ k ∈ ks, amount k = 0 := by
    intro k hk
    have hno := List.any_eq_false.mp h k hk
    unfold isNum at hno
    unfold amount
    split at hno <;> simp_all
  rw [List.map_congr_left hzero]
  simp

theorem total_append (ks : List (Option Kind)) (k : Option Kind) (h : Uniform (ks ++ [k])) :
    total (ks ++ [k]) = combine (total ks) k := by
  have hany : (ks ++ [k]).any isNum = (ks.any isNum || isNum k) := by simp
  have hsum : ((ks ++ [k]).map amount).sum = (ks.map amount).sum + amount k := by simp
  have hobject : some Kind.object ∈ ks ++ [k] ↔ some .object ∈ ks ∨ some .object = k := by simp
  have hnull : some Kind.null ∈ ks ++ [k] ↔ some .null ∈ ks ∨ some .null = k := by simp
  unfold total
  simp only [hany, hsum, hobject, hnull]
  cases k with
  | none => simp [isNum, amount, combine]
  | some k =>
    have hlast : some k ∈ ks ++ [some k] := by simp
    cases k with
    | null =>
      by_cases hn : ks.any isNum = true
      · simp [hn, isNum, amount, combine]
      · by_cases ho : some Kind.object ∈ ks <;> by_cases hz : some Kind.null ∈ ks <;>
          simp [hn, ho, hz, isNum, combine]
    | num v =>
      have hno : some Kind.object ∉ ks := fun ho => h.no_object hlast (List.mem_append_left _ ho)
      by_cases hn : ks.any isNum = true
      · simp [hn, isNum, amount, combine]
      · have hzero := amount_sum_of_no_num (by simpa using hn)
        by_cases hz : some Kind.null ∈ ks <;> simp [hn, hno, hz, hzero, isNum, amount, combine]
    | object =>
      have hn : ks.any isNum = false := by
        rw [List.any_eq_false]
        intro k hk
        simp [h.no_num hlast k (List.mem_append_left _ hk)]
      by_cases ho : some Kind.object ∈ ks <;> simp [hn, ho, isNum, combine]
    | _ => exact absurd (h.known hlast) (by simp)

/-! ## Paths -/

def valueKind : Value → Kind
  | .null => .null
  | .num x => .num x.signed
  | .obj _ => .object
  | _ => .other

/-- What stands at a path in a value. -/
def kindOf : List Text → Value → Option Kind
  | [], v => some (valueKind v)
  | k :: p, .obj m => (get k m).bind (kindOf p)
  | _ :: _, _ => none

def usageKind : Usage → Kind
  | .sum (.finite x) => .num x.signed
  | .sum _ => .overflow
  | .nested _ => .object
  | .other .null => .null
  | .other _ => .other

/-- What stands at a path in a merged usage. -/
def kindAt : List Text → Usage → Option Kind
  | [], u => some (usageKind u)
  | k :: p, .nested m => (get k m).bind (kindAt p)
  | _ :: _, _ => none

/-- The usage of the answers, merged one after the other. -/
def merged (ms : List (Entries Value)) : Entries Usage := ms.foldl mergeUsage []

def kindsAt (p : List Text) (ms : List (Entries Value)) : List (Option Kind) := ms.map fun m => kindOf p (.obj m)

/-- At every path the answers have numbers or objects, and the numbers are integers
whose sum is in the exact range of a float. -/
structure Summable (ms : List (Entries Value)) : Prop where
  uniform : ∀ p, Uniform (kindsAt p ms)
  whole : ∀ p, ∀ k ∈ kindsAt p ms, (2 ^ 1074 : Int) ∣ amount k
  bounded : ∀ p, ((kindsAt p ms).map fun k => (amount k).natAbs).sum ≤ 2 ^ 53 * 2 ^ 1074

/-! ## One answer more -/

/-- A key of the merged usage, by the key in both. -/
theorem get_mergeUsage (k : Text) (dst : Entries Usage) {src : Entries Value} (h : Sorted src) :
    get k (mergeUsage dst src) =
      match get k src with
      | none => get k dst
      | some v => some (mergeField (get k dst) v) := by
  induction src generalizing dst with
  | nil => rfl
  | cons e src ih =>
    obtain ⟨key, value⟩ := e
    rw [Sorted, List.pairwise_cons] at h
    rw [mergeUsage, ih _ h.2]
    by_cases hk : k = key
    · subst hk
      have hnone : get k src = none := get_none_of_lt h.1
      have hhead : get k ((k, value) :: src) = some value := by simp [GoMap.get]
      rw [hnone, hhead, get_store_self]
    · have hhead : get k ((key, value) :: src) = get k src := by simp [GoMap.get, hk]
      rw [hhead, get_store_ne hk]

/-- The two kinds that may meet at a path, and an exact sum of two numbers. -/
def Joins (old new : Option Kind) : Prop :=
  match new with
  | none => True
  | some .null => True
  | some (.num b) => ExactUnits b ∧
      (old = none ∨ old = some .null ∨ ∃ a, old = some (.num a) ∧ ExactUnits (a + b))
  | some .object => old = none ∨ old = some .null ∨ old = some .object
  | some _ => False

/-- What a merged usage may have at a key, path by path. -/
def keptAt (p : List Text) (old : Option Usage) : Option Kind := old.bind (kindAt p)

theorem keptAt_cons (k : Text) (p : List Text) (old : Option Usage) :
    keptAt (k :: p) old = keptAt p (get k (nestedOf old)) := by
  cases old with
  | none => rfl
  | some u => cases u <;> rfl

/-- A kind that is no object has nothing below it. -/
theorem keptAt_below {old : Option Usage} (h : keptAt [] old ≠ some .object) (k : Text) (p : List Text) :
    keptAt (k :: p) old = none := by
  cases old with
  | none => rfl
  | some u =>
    cases u with
    | nested m => exact absurd rfl h
    | _ => rfl

theorem numeric_add {old : Option Usage} {x : Float64} (h : Joins (keptAt [] old) (some (.num x.signed))) :
    ∃ y : Float64, (numeric old).add (.finite x) = .finite y ∧
      combine (keptAt [] old) (some (.num x.signed)) = some (.num y.signed) := by
  obtain ⟨hx, hold⟩ := h
  have hfresh : (keptAt [] old = none ∨ keptAt [] old = some .null) →
      numeric old = .finite ⟨false, 0, by decide +kernel, by decide +kernel⟩ := by
    intro hf
    cases old with
    | none => rfl
    | some u =>
      cases u with
      | sum y => cases y <;> simp [keptAt, kindAt, usageKind] at hf
      | _ => rfl
  have hzero : ∀ neg, ∃ y : Float64, ofUnits neg (0 + x.signed) = .finite y ∧ y.signed = x.signed := by
    intro neg
    rw [Int.zero_add]
    exact ofUnits_exact neg hx
  rcases hold with hold | hold | ⟨a, hold, hsum⟩
  · obtain ⟨y, hy, hsigned⟩ := hzero (false && x.neg)
    exact ⟨y, by rw [hfresh (.inl hold)]; exact hy, by rw [hold, hsigned]; rfl⟩
  · obtain ⟨y, hy, hsigned⟩ := hzero (false && x.neg)
    exact ⟨y, by rw [hfresh (.inr hold)]; exact hy, by rw [hold, hsigned]; rfl⟩
  · cases old with
    | none => simp [keptAt] at hold
    | some u =>
      cases u with
      | sum z =>
        cases z with
        | finite z =>
          obtain rfl : z.signed = a := by simpa [keptAt, kindAt, usageKind] using hold
          obtain ⟨y, hy, hsigned⟩ := ofUnits_exact (z.neg && x.neg) hsum
          exact ⟨y, hy, by rw [hold, hsigned]; rfl⟩
        | _ => simp [keptAt, kindAt, usageKind] at hold
      | other v => cases v <;> simp [keptAt, kindAt, usageKind] at hold
      | nested m => simp [keptAt, kindAt, usageKind] at hold

theorem mergeField_null (old : Option Usage) : mergeField old .null = old.getD (.other .null) := by
  simp [mergeField]

/-- Step lemma: what a merge leaves at each path of a key. -/
theorem kindAt_mergeField (p : List Text) {old : Option Usage} {v : Value} (hv : Canonical v)
    (h : ∀ p, Joins (keptAt p old) (kindOf p v)) :
    kindAt p (mergeField old v) = combine (keptAt p old) (kindOf p v) := by
  induction p generalizing old v with
  | nil =>
    have hroot := h []
    cases v with
    | null =>
      rw [mergeField_null]
      cases old with
      | none => rfl
      | some u => rfl
    | num x =>
      obtain ⟨y, hy, hcombine⟩ := numeric_add hroot
      rw [mergeField, hy, kindOf, valueKind, hcombine]
      rfl
    | obj m =>
      simp only [kindOf, valueKind, Joins] at hroot
      rw [mergeField, kindOf, valueKind]
      rcases hroot with hroot | hroot | hroot <;> rw [hroot] <;> rfl
    | _ => exact absurd hroot (by simp [kindOf, valueKind, Joins])
  | cons k p ih =>
    cases v with
    | null =>
      rw [mergeField_null]
      cases old with
      | none => rfl
      | some u => simp [keptAt, kindOf, combine]
    | num x =>
      have hno : keptAt [] old ≠ some .object := by
        intro ho
        have hroot := h []
        rw [ho] at hroot
        simp [kindOf, valueKind, Joins] at hroot
      rw [mergeField, keptAt_below hno]
      rfl
    | obj m =>
      have hsorted : Sorted m := hv.1
      rw [mergeField, kindAt, get_mergeUsage k _ hsorted, keptAt_cons, kindOf]
      cases hg : get k m with
      | none => simp [combine, keptAt]
      | some w =>
        have hw : Canonical w := canonicalMembers_iff.mp hv.2 _ (mem_of_get hg)
        refine ih hw fun q => ?_
        have hq := h (k :: q)
        rwa [keptAt_cons, kindOf, hg] at hq
    | _ => exact absurd (h []) (by simp [kindOf, valueKind, Joins])

/-! ## All answers -/

theorem kindsAt_append (p : List Text) (ms : List (Entries Value)) (m : Entries Value) :
    kindsAt p (ms ++ [m]) = kindsAt p ms ++ [kindOf p (.obj m)] := by
  simp [kindsAt]

theorem Summable.init {ms : List (Entries Value)} {m : Entries Value} (h : Summable (ms ++ [m])) :
    Summable ms := by
  have hsub : ∀ p, ∀ k ∈ kindsAt p ms, k ∈ kindsAt p (ms ++ [m]) := by
    intro p k hk
    rw [kindsAt_append]
    exact List.mem_append_left _ hk
  constructor
  · intro p
    cases h.uniform p with
    | inl hp => exact .inl fun k hk => hp k (hsub p k hk)
    | inr hp => exact .inr fun k hk => hp k (hsub p k hk)
  · exact fun p k hk => h.whole p k (hsub p k hk)
  · intro p
    have hle := h.bounded p
    rw [kindsAt_append, List.map_append, List.sum_append] at hle
    omega

theorem natAbs_sum_le (ks : List (Option Kind)) :
    (ks.map amount).sum.natAbs ≤ (ks.map fun k => (amount k).natAbs).sum := by
  induction ks with
  | nil => simp
  | cons k ks ih =>
    rw [List.map_cons, List.sum_cons, List.map_cons, List.sum_cons]
    omega

theorem Summable.exact {ms : List (Entries Value)} (h : Summable ms) (p : List Text) :
    ExactUnits ((kindsAt p ms).map amount).sum := by
  refine ⟨List.dvd_sum ?_, (natAbs_sum_le _).trans (h.bounded p)⟩
  intro v hv
  obtain ⟨k, hk, rfl⟩ := List.mem_map.mp hv
  exact h.whole p k hk

/-- The last answer may be joined to the others. -/
theorem Summable.joins {ms : List (Entries Value)} {m : Entries Value} (h : Summable (ms ++ [m])) (p : List Text) :
    Joins (total (kindsAt p ms)) (kindOf p (.obj m)) := by
  have huniform := h.uniform p
  have hexact := h.exact p
  have hwhole := h.whole p
  have hbounded := h.bounded p
  rw [kindsAt_append] at huniform hexact hwhole hbounded
  generalize kindOf p (.obj m) = new at *
  generalize kindsAt p ms = ks at *
  cases new with
  | none => trivial
  | some new =>
    have hlast : some new ∈ ks ++ [some new] := by simp
    cases new with
    | null => trivial
    | num b =>
      have hb : ExactUnits b := by
        refine ⟨hwhole _ hlast, ?_⟩
        rw [List.map_append, List.sum_append] at hbounded
        simp only [List.map_cons, List.map_nil, List.sum_cons, List.sum_nil, amount] at hbounded
        omega
      have hno : some Kind.object ∉ ks := fun ho => huniform.no_object hlast (List.mem_append_left _ ho)
      refine ⟨hb, ?_⟩
      unfold total
      split
      · right
        right
        refine ⟨_, rfl, ?_⟩
        simpa [amount] using hexact
      · split
        · exact .inr (.inl rfl)
        · exact .inl rfl
    | object =>
      have hno : ks.any isNum = false := by
        rw [List.any_eq_false]
        intro k hk
        simp [huniform.no_num hlast k (List.mem_append_left _ hk)]
      unfold total
      rw [hno]
      simp only [Bool.false_eq_true, if_false, Joins]
      split
      · exact .inr (.inr rfl)
      · split
        · exact .inr (.inl rfl)
        · exact .inl rfl
    | _ => exact absurd (huniform.known hlast) (by simp)

/-- Run lemma: below its root the merged usage has the total of the answers at each path. -/
theorem kindAt_merged {ms : List (Entries Value)} (hcan : ∀ m ∈ ms, Canonical (.obj m)) (h : Summable ms)
    (k : Text) (p : List Text) :
    kindAt (k :: p) (.nested (merged ms)) = total (kindsAt (k :: p) ms) := by
  induction ms using List.reverseRecOn generalizing k p with
  | nil => rfl
  | append_singleton ms m ih =>
    have ih := fun k p => ih (fun x hx => hcan x (by simp [hx])) h.init k p
    have hm : Canonical (.obj m) := hcan m (by simp)
    have hsorted : Sorted m := hm.1
    rw [kindsAt_append, total_append _ _ (kindsAt_append _ _ _ ▸ h.uniform (k :: p)), ← ih]
    have hmerged : merged (ms ++ [m]) = mergeUsage (merged ms) m := by simp [merged]
    rw [hmerged, kindAt, get_mergeUsage k _ hsorted, kindOf, kindAt]
    cases hg : get k m with
    | none => simp [combine]
    | some w =>
      have hw : Canonical w := canonicalMembers_iff.mp hm.2 _ (mem_of_get hg)
      apply kindAt_mergeField p hw
      intro q
      have hq := h.joins (k :: q)
      rw [← ih, kindOf, hg] at hq
      exact hq

/-! ## The encoded usage -/

mutual
/-- A usage as the merge builds it: maps in order, and values that were read. -/
def Ordered : Usage → Prop
  | .sum _ => True
  | .nested m => Sorted m ∧ OrderedMembers m
  | .other v => Read v
def OrderedMembers : List (Text × Usage) → Prop
  | [] => True
  | (_, u) :: m => Ordered u ∧ OrderedMembers m
end

theorem orderedMembers_iff {m : List (Text × Usage)} : OrderedMembers m ↔ ∀ e ∈ m, Ordered e.2 := by
  induction m with
  | nil => simp [OrderedMembers]
  | cons e m ih =>
    obtain ⟨k, u⟩ := e
    simp [OrderedMembers, ih]

theorem orderedMembers_store (k : Text) {u : Usage} (hu : Ordered u) {m : Entries Usage}
    (hm : OrderedMembers m) : OrderedMembers (store k u m) := by
  rw [orderedMembers_iff] at hm ⊢
  intro e he
  cases mem_store he with
  | inl he => exact he ▸ hu
  | inr he => exact hm e he

theorem kept_ordered {v : Value} {old : Option Usage} (hread : Read v) (hold : ∀ u, old = some u → Ordered u) :
    Ordered (old.getD (.other v)) := by
  cases old with
  | none => exact hread
  | some u => exact hold u rfl

mutual
theorem mergeUsage_ordered : ∀ (src : List (Text × Value)) (dst : Entries Usage), (∀ e ∈ src, Read e.2) →
    Sorted dst ∧ OrderedMembers dst → Sorted (mergeUsage dst src) ∧ OrderedMembers (mergeUsage dst src)
  | [], _, _, h => h
  | (key, value) :: src, dst, hread, h => by
    have hold : ∀ u, get key dst = some u → Ordered u := fun u hu => orderedMembers_iff.mp h.2 _ (mem_of_get hu)
    have hfield := mergeField_ordered value (get key dst) (hread (key, value) (by simp)) hold
    rw [mergeUsage]
    exact mergeUsage_ordered src _ (fun e he => hread e (by simp [he]))
      ⟨store_sorted key _ h.1, orderedMembers_store key hfield h.2⟩
theorem mergeField_ordered : ∀ (v : Value) (old : Option Usage), Read v → (∀ u, old = some u → Ordered u) →
    Ordered (mergeField old v)
  | .num _, _, _, _ => trivial
  | .obj m, old, hread, hold => by
    have hnested : Sorted (nestedOf old) ∧ OrderedMembers (nestedOf old) := by
      cases old with
      | none => exact ⟨List.Pairwise.nil, trivial⟩
      | some u =>
        cases u with
        | nested m' => exact hold _ rfl
        | _ => exact ⟨List.Pairwise.nil, trivial⟩
    exact mergeUsage_ordered m _ hread.member hnested
  | .null, _, hread, hold => kept_ordered hread hold
  | .bool _, _, hread, hold => kept_ordered hread hold
  | .int _, _, hread, hold => kept_ordered hread hold
  | .str _, _, hread, hold => kept_ordered hread hold
  | .arr _, _, hread, hold => kept_ordered hread hold
end

theorem merged_ordered {ms : List (Entries Value)} (h : ∀ m ∈ ms, Read (.obj m)) :
    Sorted (merged ms) ∧ OrderedMembers (merged ms) := by
  induction ms using List.reverseRecOn with
  | nil => exact ⟨List.Pairwise.nil, trivial⟩
  | append_singleton ms m ih =>
    have hmerged : merged (ms ++ [m]) = mergeUsage (merged ms) m := by simp [merged]
    rw [hmerged]
    exact mergeUsage_ordered m _ (h m (by simp)).member (ih fun x hx => h x (by simp [hx]))

/-- A sum somewhere in a usage that is no finite float. -/
inductive Overflow : Usage → Prop
  | sum {x : Extended} : (∀ y, x ≠ .finite y) → Overflow (.sum x)
  | nested {m : List (Text × Usage)} {k : Text} {u : Usage} : (k, u) ∈ m → Overflow u → Overflow (.nested m)

mutual
theorem value_eq_none : ∀ u : Usage, Usage.value u = none ↔ Overflow u
  | .sum (.finite x) => by
    constructor
    · intro h
      cases h
    · rintro (⟨h⟩)
      exact absurd rfl (h x)
  | .sum (.inf neg) => ⟨fun _ => .sum (by simp), fun _ => rfl⟩
  | .sum .nan => ⟨fun _ => .sum (by simp), fun _ => rfl⟩
  | .nested m => by
    rw [Usage.value, Option.map_eq_none_iff, values_eq_none m]
    constructor
    · rintro ⟨e, he, h⟩
      exact .nested he h
    · intro h
      cases h with
      | nested he h => exact ⟨_, he, h⟩
  | .other v => by
    constructor
    · intro h
      cases h
    · intro h
      cases h
theorem values_eq_none : ∀ m : List (Text × Usage), Usage.values m = none ↔ ∃ e ∈ m, Overflow e.2
  | [] => by simp [Usage.values]
  | (k, u) :: m => by
    have hu := value_eq_none u
    have hm := values_eq_none m
    have hcons : (∃ e ∈ (k, u) :: m, Overflow e.2) ↔ Overflow u ∨ ∃ e ∈ m, Overflow e.2 := by simp
    rw [hcons, Usage.values, ← hu, ← hm]
    cases Usage.value u <;> cases Usage.values m <;> simp
end

mutual
/-- A sum is named in the error exactly where the usage is not encoded. -/
theorem unsupported_isSome : ∀ u : Usage, (Usage.unsupported u).isSome = (Usage.value u).isNone
  | .sum (.finite _) => rfl
  | .sum (.inf _) => rfl
  | .sum .nan => rfl
  | .nested m => by
    rw [Usage.unsupported, Usage.value, Option.isNone_map, unsupportedIn_isSome m]
  | .other _ => rfl
theorem unsupportedIn_isSome : ∀ m : List (Text × Usage),
    (Usage.unsupportedIn m).isSome = (Usage.values m).isNone
  | [] => rfl
  | (k, u) :: m => by
    have hu := unsupported_isSome u
    have hm := unsupportedIn_isSome m
    rw [Usage.unsupportedIn, Usage.values, Option.isSome_or, hu, hm]
    cases Usage.value u <;> cases Usage.values m <;> rfl
end

theorem get_values {m : List (Text × Usage)} {vs : List (Text × Value)} (h : Usage.values m = some vs) (k : Text) :
    match get k m with
    | none => get k vs = none
    | some u => ∃ v, Usage.value u = some v ∧ get k vs = some v := by
  induction m generalizing vs with
  | nil =>
    cases h
    rfl
  | cons e m ih =>
    obtain ⟨key, u⟩ := e
    obtain ⟨v, hv, h⟩ := Option.bind_eq_some_iff.mp h
    obtain ⟨ws, hws, rfl⟩ := Option.map_eq_some_iff.mp h
    have ih := ih hws
    by_cases hk : k = key
    · simp [GoMap.get, hk, hv]
    · simpa only [GoMap.get, if_neg hk] using ih

/-- An encoded usage has at each path what the merged one has there. -/
theorem kindOf_value (p : List Text) {u : Usage} {v : Value} (h : Usage.value u = some v)
    (hknown : ∀ q, kindAt q u ≠ some .other) : kindOf p v = kindAt p u := by
  induction p generalizing u v with
  | nil =>
    cases u with
    | sum x =>
      cases x with
      | finite x =>
        cases h
        rfl
      | _ => cases h
    | nested m =>
      obtain ⟨vs, -, rfl⟩ := Option.map_eq_some_iff.mp h
      rfl
    | other w =>
      obtain rfl : w = v := Option.some.inj h
      cases w with
      | null => rfl
      | _ => exact absurd rfl (hknown [])
  | cons k p ih =>
    cases u with
    | sum x =>
      cases x with
      | finite x =>
        cases h
        rfl
      | _ => cases h
    | nested m =>
      obtain ⟨vs, hvs, rfl⟩ := Option.map_eq_some_iff.mp h
      have hget := get_values hvs k
      rw [kindOf, kindAt]
      cases hg : get k m with
      | none =>
        rw [hg] at hget
        rw [hget]
        rfl
      | some w =>
        rw [hg] at hget
        obtain ⟨x, hx, hget⟩ := hget
        have hw : ∀ q, kindAt q w ≠ some .other := by
          intro q hq
          apply hknown (k :: q)
          rw [kindAt, hg]
          exact hq
        rw [hget]
        exact ih hx hw
    | other w =>
      obtain rfl : w = v := Option.some.inj h
      cases w with
      | null => rfl
      | _ => exact absurd rfl (hknown [])

mutual
theorem value_read : ∀ (u : Usage) (v : Value), Ordered u → Usage.value u = some v → Read v
  | .sum (.finite _), _, _, rfl => ⟨trivial, rfl⟩
  | .nested m, v, hu, h => by
    obtain ⟨vs, hvs, rfl⟩ := Option.map_eq_some_iff.mp h
    obtain ⟨hkeys, hread⟩ := values_read m vs hu.2 hvs
    exact read_obj (sorted_of_keys hkeys hu.1) hread
  | .other _, _, hu, rfl => hu
theorem values_read : ∀ (m : List (Text × Usage)) (vs : List (Text × Value)), OrderedMembers m →
    Usage.values m = some vs → vs.map Prod.fst = m.map Prod.fst ∧ ∀ e ∈ vs, Read e.2
  | [], _, _, rfl => ⟨rfl, by simp⟩
  | (k, u) :: m, vs, hm, h => by
    obtain ⟨v, hv, h⟩ := Option.bind_eq_some_iff.mp h
    obtain ⟨ws, hws, rfl⟩ := Option.map_eq_some_iff.mp h
    obtain ⟨hkeys, hread⟩ := values_read m ws hm.2 hws
    refine ⟨by simp [hkeys], ?_⟩
    intro e he
    cases List.mem_cons.mp he with
    | inl he => exact he ▸ value_read u v hm.1 hv
    | inr he => exact hread e he
end

theorem merged_read {ms : List (Entries Value)} (h : ∀ m ∈ ms, Read (.obj m)) {vs : List (Text × Value)}
    (hvs : Usage.values (merged ms) = some vs) : Read (.obj vs) := by
  obtain ⟨hsorted, hmembers⟩ := merged_ordered h
  obtain ⟨hkeys, hread⟩ := values_read _ vs hmembers hvs
  exact read_obj (sorted_of_keys hkeys hsorted) hread

theorem total_ne_other (ks : List (Option Kind)) : total ks ≠ some .other := by
  unfold total
  split
  · simp
  · split
    · simp
    · split <;> simp

/-- The usage that is written has at every path the total of the answers. -/
theorem kindOf_merged {ms : List (Entries Value)} (hne : ms ≠ []) (hread : ∀ m ∈ ms, Read (.obj m))
    (h : Summable ms) {vs : List (Text × Value)} (hvs : Usage.values (merged ms) = some vs) (p : List Text) :
    kindOf p (.obj vs) = total (kindsAt p ms) := by
  have hpaths := kindAt_merged (fun m hm => (hread m hm).1) h
  cases p with
  | nil =>
    obtain ⟨m, ms, rfl⟩ := List.exists_cons_of_ne_nil hne
    have hnum : (kindsAt [] (m :: ms)).any isNum = false := by
      simp [kindsAt, kindOf, valueKind, isNum]
    have hmem : some Kind.object ∈ kindsAt [] (m :: ms) := by simp [kindsAt, kindOf, valueKind]
    rw [total, hnum, if_neg Bool.false_ne_true, if_pos hmem]
    rfl
  | cons k p =>
    have hvalue : Usage.value (.nested (merged ms)) = some (.obj vs) := by rw [Usage.value, hvs, Option.map_some]
    rw [← hpaths]
    apply kindOf_value _ hvalue
    intro q
    cases q with
    | nil => simp [kindAt, usageKind]
    | cons k q =>
      rw [hpaths]
      exact total_ne_other _

end NChoiceUsage
