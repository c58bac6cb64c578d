/-
  Subject:   The tables of writer and reader stay in step, when no two types print alike.

  * `Loaded`: what the reader makes of the writer's pointers;
  * `Distinct`: the condition on the crate: types that print alike are the same;
  * `Synced`: the invariant, outside of a function's body or inside;
  * `type_saves`, `simplepath_saves`: one type and one path, new or known.
-/
import Mathlib.Data.List.Perm.Subperm
import Trustme.Metadata.BackRefs

namespace Trustme.Metadata

open Trustme.Lib

variable {K K' : Pointers} {H : Heap K} {P : Printed H} {I : Interner K'}

/-! ## 1. What is read of a heap -/

/-- What the reader makes of the writer's pointers. -/
structure Loaded (H : Heap K) (I : Interner K') where
  into : Targets K K'
  path_eq : ∀ p, into.path p = p.bind fun d => I.pathOf (H.members d)
  type_eq : ∀ t, into.type t = I.type ((H.type t).map into.read)
  literal_eq : ∀ l, into.literal l = I.literal (EncodedLiteral.map into.read (H.literal l))
  unevaluated_eq : ∀ u, into.unevaluated u = I.unevaluated ((H.unevaluated u).map into.read)
  traitpath_eq : ∀ p, into.traitpath p = I.traitpath ((H.traitpath p).map into.read)

/-- How deep a thing is, as the reader has it. -/
def Loaded.age (L : Loaded H I) (x : Node K) : Nat := I.age (L.into.node x)

/-- What a thing points to. -/
def Heap.refs (H : Heap K) : Node K → List (Node K)
  | .type t => (H.type t).refs
  | .literal l => EncodedLiteral.refs (H.literal l)
  | .unevaluated u => (H.unevaluated u).refs
  | .traitpath p => (H.traitpath p).refs

/-- What a thing points to is less deep. -/
theorem Loaded.age_lt (L : Loaded H I) {x y : Node K} (h : y ∈ H.refs x) : L.age y < L.age x := by
  have hnode := List.mem_map_of_mem (f := L.into.node) h
  cases x with
  | type t =>
    rw [Heap.refs, ← (H.type t).refs_map L.into.read] at hnode
    rw [Loaded.age, Loaded.age, Targets.node, L.type_eq]
    exact I.type_older _ _ hnode
  | literal l =>
    rw [Heap.refs, ← EncodedLiteral.refs_map L.into.read] at hnode
    show _ < I.age (.literal (L.into.literal l))
    rw [L.literal_eq]
    exact I.literal_older _ _ hnode
  | unevaluated u =>
    rw [Heap.refs, ← (H.unevaluated u).refs_map L.into.read] at hnode
    show _ < I.age (.unevaluated (L.into.unevaluated u))
    rw [L.unevaluated_eq]
    exact I.unevaluated_older _ _ hnode
  | traitpath p =>
    rw [Heap.refs, ← (H.traitpath p).refs_map L.into.read] at hnode
    show _ < I.age (.traitpath (L.into.traitpath p))
    rw [L.traitpath_eq]
    exact I.traitpath_older _ _ hnode

def Printed.key (P : Printed H) (t : K.Ty) : Text := typeKey (P.text.type t)

/-- No two different types print alike, and there are not too many types and paths for the numbers
    that stand for a new type, a new path and the empty path. -/
structure Distinct (P : Printed H) (L : Loaded H I) : Prop where
  alike : ∀ t t', P.key t = P.key t' → L.into.type t = L.into.type t'
  types : ∃ names : List Text, names.length ≤ FRESH ∧ ∀ t, P.key t ∈ names
  paths : ∃ datas : List K.PathData, datas.length ≤ SIMPLE_PATH_EMPTY ∧ ∀ d, d ∈ datas

/-! ## 2. The invariant -/

/-- The part of the tables that indices mean. -/
def visible {α : Type} (table region : List α) : Option Nat → List α
  | none => table
  | some base => table.take base ++ region

theorem entryAt_eq {α : Type} {table region : List α} {base : Option Nat} {idx : Nat}
    (h : ∀ b ∈ base, b ≤ table.length) :
    entryAt table region base idx = (visible table region base)[idx]? := by
  rcases base with _ | b
  · rfl
  · have hlen : (table.take b).length = b := by
      rw [List.length_take]
      exact Nat.min_eq_left (h b rfl)
    rw [entryAt, visible]
    split
    · next hlt =>
      rw [List.getElem?_append_left (by omega), List.getElem?_take_of_lt hlt]
    · next hge =>
      rw [List.getElem?_append_right (by omega), hlen]

def ReadTables.visibleTypes (t : ReadTables K') : List K'.Ty :=
  visible t.types t.regionTypes t.regionTypeBase

def ReadTables.visiblePaths (t : ReadTables K') : List (HIRSimplePath K') :=
  visible t.simplePaths t.regionPaths t.regionPathBase

/-- From `s₀` on, the keys of the region are kept, and no name is added of a type as deep as `age`
    or deeper. -/
structure Since (P : Printed H) (L : Loaded H I) (age : Nat) (s₀ s : RefTables K) : Prop where
  inRegion : s.inRegion = s₀.inRegion
  keys : ∀ k ∈ s₀.regionTypeKeys, k ∈ s.regionTypeKeys
  names : ∀ ty, age ≤ L.age (.type ty) → s₀.types.find (P.key ty) = none →
    s.types.find (P.key ty) = none

theorem Since.refl {L : Loaded H I} {age : Nat} {s : RefTables K} : Since P L age s s :=
  ⟨rfl, fun _ h => h, fun _ _ h => h⟩

theorem Since.trans {L : Loaded H I} {age age' : Nat} {s₀ s₁ s₂ : RefTables K}
    (h : Since P L age s₀ s₁) (h' : Since P L age' s₁ s₂) (hage : age' ≤ age) :
    Since P L age s₀ s₂ :=
  ⟨h'.inRegion.trans h.inRegion, fun k hk => h'.keys k (h.keys k hk),
    fun ty hty hn => h'.names ty (Nat.le_trans hage hty) (h.names ty hty hn)⟩

/-- Outside of a body, the tables grown from `since` on; or inside of one that was entered with the
    tables `before` of the writer and `tables` of the reader. -/
inductive Place (K K' : Pointers) where
  | outside (since : ReadTables K')
  | inside (before : RefTables K) (tables : ReadTables K')

variable [DecidableEq K.Ty] [DecidableEq K.PathData]

structure Outside (since : ReadTables K') (s : RefTables K) (t : ReadTables K') : Prop where
  inRegion : s.inRegion = false
  regionTypeKeys : s.regionTypeKeys = []
  regionTypeNames : s.regionTypeNames = []
  regionPathKeys : s.regionPathKeys = []
  regionTypeBase : t.regionTypeBase = none
  regionPathBase : t.regionPathBase = none
  regionTypes : t.regionTypes = []
  regionPaths : t.regionPaths = []
  types : since.types <+: t.types
  simplePaths : since.simplePaths <+: t.simplePaths
  bodies : t.bodies = since.bodies

structure Inside (before : RefTables K) (tables : ReadTables K') (s : RefTables K)
    (t : ReadTables K') : Prop where
  inRegion : s.inRegion = true
  endRegion : s.endRegion = before
  types : t.types = tables.types
  simplePaths : t.simplePaths = tables.simplePaths
  regionTypeBase : t.regionTypeBase = some before.types.length
  regionPathBase : t.regionPathBase = some before.simplePathIds.length
  typesLength : before.types.length ≤ tables.types.length
  pathsLength : before.simplePathIds.length ≤ tables.simplePaths.length
  bodies : t.bodies = tables.bodies

def Stands : Place K K' → RefTables K → ReadTables K' → Prop
  | .outside since => Outside since
  | .inside before tables => Inside before tables

/-- Every index that the writer has, means for the reader what it means for the writer, and both
    count alike. -/
structure Synced (P : Printed H) (L : Loaded H I) (place : Place K K') (s : RefTables K)
    (t : ReadTables K') : Prop where
  types : Ids.Points (fun name v => ∀ ty, P.key ty = name → L.into.type ty = v) s.types
    t.visibleTypes
  typeIds : Ids.Points (fun ty v => L.into.type ty = v) s.typeIds t.visibleTypes
  paths : Ids.Points (fun d v => L.into.path (some d) = v) s.simplePathIds t.visiblePaths
  typesLength : s.types.length = t.visibleTypes.length
  pathsLength : s.simplePathIds.length = t.visiblePaths.length
  typesNodup : (s.types.map Prod.fst).Nodup
  pathsNodup : (s.simplePathIds.map Prod.fst).Nodup
  named : ∀ name ∈ s.types.map Prod.fst, ∃ ty, P.key ty = name
  stands : Stands place s t

namespace Synced

variable {L : Loaded H I} {place : Place K K'} {s : RefTables K} {t : ReadTables K'}

theorem base_le (h : Stands place s t) :
    (∀ b ∈ t.regionTypeBase, b ≤ t.types.length) ∧
      ∀ b ∈ t.regionPathBase, b ≤ t.simplePaths.length := by
  cases place with
  | outside since =>
    constructor
    · intro b hb
      rw [h.regionTypeBase] at hb
      cases hb
    · intro b hb
      rw [h.regionPathBase] at hb
      cases hb
  | inside before tables =>
    constructor
    · intro b hb
      rw [h.regionTypeBase] at hb
      cases hb
      rw [h.types]
      exact h.typesLength
    · intro b hb
      rw [h.regionPathBase] at hb
      cases hb
      rw [h.simplePaths]
      exact h.pathsLength

/-- The indices of types are no `FRESH`. -/
theorem types_le (h : Synced P L place s t) (hd : Distinct P L) : s.types.length ≤ FRESH := by
  obtain ⟨names, hlen, hmem⟩ := hd.types
  have hsub : s.types.map Prod.fst ⊆ names := by
    intro name hn
    obtain ⟨ty, rfl⟩ := h.named name hn
    exact hmem ty
  have hle := (h.typesNodup.subperm hsub).length_le
  rw [List.length_map] at hle
  exact Nat.le_trans hle hlen

theorem paths_le (h : Synced P L place s t) (hd : Distinct P L) :
    s.simplePathIds.length ≤ SIMPLE_PATH_EMPTY := by
  obtain ⟨datas, hlen, hmem⟩ := hd.paths
  have hle := (h.pathsNodup.subperm fun d _ => hmem d).length_le
  rw [List.length_map] at hle
  exact Nat.le_trans hle hlen

variable {ty : K.Ty} {id : Nat}

variable (h : Synced P L place s t)

include h

theorem type_at (hf : s.typeIds.find ty = some id) :
    entryAt t.types t.regionTypes t.regionTypeBase id = some (L.into.type ty) := by
  obtain ⟨v, hv, rfl⟩ := h.typeIds ty id hf
  rw [entryAt_eq (base_le h.stands).1]
  exact hv

theorem name_at (hf : s.types.find (P.key ty) = some id) :
    entryAt t.types t.regionTypes t.regionTypeBase id = some (L.into.type ty) := by
  obtain ⟨v, hv, hty⟩ := h.types _ id hf
  rw [entryAt_eq (base_le h.stands).1, hty ty rfl]
  exact hv

theorem path_at {d : K.PathData}
    (hf : s.simplePathIds.find d = some id) :
    entryAt t.simplePaths t.regionPaths t.regionPathBase id = some (L.into.path (some d)) := by
  obtain ⟨v, hv, rfl⟩ := h.paths d id hf
  rw [entryAt_eq (base_le h.stands).2]
  exact hv

/-- An index is a place in the table. -/
theorem typeId_lt (hd : Distinct P L)
    (hf : s.typeIds.find ty = some id) : id < FRESH :=
  Nat.lt_of_lt_of_le (h.typeIds.lt hf) (h.typesLength ▸ h.types_le hd)

theorem nameId_lt (hd : Distinct P L) {name : Text}
    (hf : s.types.find name = some id) : id < FRESH :=
  Nat.lt_of_lt_of_le (h.types.lt hf) (h.typesLength ▸ h.types_le hd)

theorem pathId_lt (hd : Distinct P L) {d : K.PathData}
    (hf : s.simplePathIds.find d = some id) : id < SIMPLE_PATH_EMPTY :=
  Nat.lt_of_lt_of_le (h.paths.lt hf) (h.pathsLength ▸ h.paths_le hd)

/-- A type that is met first is noted, to be forgotten with the region. -/
theorem noteType {ty : K.Ty} (hf : s.typeIds.find ty = none) :
    Synced P L place (s.noteType ty) t := by
  cases place with
  | outside since =>
    have hs : s.noteType ty = s := by
      rw [RefTables.noteType, if_neg (by rw [h.stands.inRegion]; decide)]
    rwa [hs]
  | inside before tables =>
    have hs : s.noteType ty = { s with regionTypeKeys := s.regionTypeKeys ++ [ty] } := by
      rw [RefTables.noteType, if_pos h.stands.inRegion]
    rw [hs]
    refine { h with stands := { h.stands with endRegion := ?_ } }
    rw [← h.stands.endRegion]
    exact congrArg (fun ids => { s.endRegion with typeIds := ids })
      (Ids.eraseAll_absent hf s.regionTypeKeys)

omit h in
omit [DecidableEq K.Ty] [DecidableEq K.PathData] in
theorem mem_noteType (hr : s.inRegion = true) :
    ty ∈ (s.noteType ty).regionTypeKeys := by
  rw [RefTables.noteType, if_pos hr]
  exact List.mem_append_right _ List.mem_cons_self

omit h in
/-- What a region adds is forgotten with it. -/
theorem endRegion_addTypeId (hk : ty ∈ s.regionTypeKeys) :
    (s.addTypeId ty id).endRegion = s.endRegion := by
  have hids : (s.typeIds.insert ty id).eraseAll s.regionTypeKeys =
      s.typeIds.eraseAll s.regionTypeKeys := by
    rcases hf : s.typeIds.find ty with _ | j
    · exact Ids.eraseAll_insert hf id hk
    · rw [Ids.insert_old hf]
  exact congrArg (fun ids => { s.endRegion with typeIds := ids }) hids

/-- Another pointer to a type whose text is known. -/
theorem addTypeId {ty : K.Ty} {id : Nat}
    (hname : s.types.find (P.key ty) = some id)
    (hk : s.inRegion = true → ty ∈ s.regionTypeKeys) :
    Synced P L place (s.addTypeId ty id) t := by
  obtain ⟨v, hv, hty⟩ := h.types _ id hname
  refine { h with
    typeIds := h.typeIds.insert hv (hty ty rfl)
    stands := ?_ }
  cases place with
  | outside since => exact { h.stands with }
  | inside before tables =>
    exact { h.stands with
      endRegion := (endRegion_addTypeId (hk h.stands.inRegion)).trans h.stands.endRegion }

omit h

omit [DecidableEq K.Ty] [DecidableEq K.PathData] in
theorem visibleTypes_pushType {v : K'.Ty} :
    (t.pushType v).visibleTypes = t.visibleTypes ++ [v] := by
  rcases hb : t.regionTypeBase with _ | b
  · simp [ReadTables.pushType, ReadTables.visibleTypes, visible, hb]
  · simp [ReadTables.pushType, ReadTables.visibleTypes, visible, hb]

omit [DecidableEq K.Ty] [DecidableEq K.PathData] in
theorem visiblePaths_pushType {v : K'.Ty} : (t.pushType v).visiblePaths = t.visiblePaths := by
  rcases hb : t.regionTypeBase with _ | b
  · simp [ReadTables.pushType, ReadTables.visiblePaths, hb]
  · simp [ReadTables.pushType, ReadTables.visiblePaths, hb]

omit [DecidableEq K.PathData] in
theorem addType_eq {name : Text} (hname : s.types.find name = none) :
    s.addType ty name = { s with
      types := s.types.insert name s.types.length
      regionTypeNames := if s.inRegion then s.regionTypeNames ++ [name] else s.regionTypeNames
      typeIds := s.typeIds.insert ty s.types.length } := by
  simp [RefTables.addType, hname, Ids.find_insert_self hname]

omit [DecidableEq K.Ty] [DecidableEq K.PathData] in
theorem Outside.pushType {since : ReadTables K'} (h : Outside since s t) (v : K'.Ty) :
    Outside since s (t.pushType v) := by
  have ht : t.pushType v = { t with types := t.types ++ [v] } := by
    rw [ReadTables.pushType, h.regionTypeBase]
  rw [ht]
  exact { h with types := h.types.trans (List.prefix_append _ _) }

theorem Inside.pushType {before : RefTables K} {tables : ReadTables K'}
    (h : Inside before tables s t) (v : K'.Ty) : Inside before tables s (t.pushType v) := by
  have ht : t.pushType v = { t with regionTypes := t.regionTypes ++ [v] } := by
    rw [ReadTables.pushType, h.regionTypeBase]
  rw [ht]
  exact { h with }

include h

/-- A type that is new gets the next number on both sides. -/
theorem addType (hd : Distinct P L) {ty : K.Ty}
    (hname : s.types.find (P.key ty) = none)
    (hk : s.inRegion = true → ty ∈ s.regionTypeKeys) :
    Synced P L place (s.addType ty (P.key ty)) (t.pushType (L.into.type ty)) := by
  rw [addType_eq hname]
  have hnew : (t.visibleTypes ++ [L.into.type ty])[s.types.length]? = some (L.into.type ty) := by
    rw [h.typesLength, List.getElem?_append_right (Nat.le_refl _), Nat.sub_self]
    rfl
  constructor
  · rw [visibleTypes_pushType]
    exact (h.types.append _).insert hnew fun t' ht => hd.alike t' ty ht
  · rw [visibleTypes_pushType]
    exact (h.typeIds.append _).insert hnew rfl
  · rw [visiblePaths_pushType]
    exact h.paths
  · rw [visibleTypes_pushType, Ids.insert_new hname, List.length_append, List.length_append,
      h.typesLength]
    rfl
  · rw [visiblePaths_pushType]
    exact h.pathsLength
  · exact Ids.nodup_insert h.typesNodup
  · exact h.pathsNodup
  · intro name hn
    rw [Ids.insert_new hname, List.map_append, List.mem_append] at hn
    rcases hn with hn | hn
    · exact h.named name hn
    · exact ⟨ty, (List.mem_singleton.1 hn).symm⟩
  · cases place with
    | outside since =>
      refine Outside.pushType ?_ _
      refine { h.stands with regionTypeNames := ?_ }
      rw [if_neg (by rw [h.stands.inRegion]; decide)]
      exact h.stands.regionTypeNames
    | inside before tables =>
      refine Inside.pushType ?_ _
      refine { h.stands with endRegion := ?_ }
      have hnames : (s.types.insert (P.key ty) s.types.length).eraseAll
          (s.regionTypeNames ++ [P.key ty]) = s.types.eraseAll s.regionTypeNames := by
        rw [Ids.eraseAll_insert hname _ (List.mem_append_right _ List.mem_cons_self),
          Ids.eraseAll_absent hname]
      have hids : (s.addTypeId ty s.types.length).endRegion = s.endRegion :=
        endRegion_addTypeId (hk h.stands.inRegion)
      rw [← h.stands.endRegion, ← hids]
      simp only [RefTables.endRegion, RefTables.addTypeId, if_pos h.stands.inRegion, hnames]

omit h in
omit [DecidableEq K.Ty] [DecidableEq K.PathData] in
theorem visiblePaths_pushPath {v : HIRSimplePath K'} :
    (t.pushPath v).visiblePaths = t.visiblePaths ++ [v] := by
  rcases hb : t.regionPathBase with _ | b
  · simp [ReadTables.pushPath, ReadTables.visiblePaths, visible, hb]
  · simp [ReadTables.pushPath, ReadTables.visiblePaths, visible, hb]

omit h in
omit [DecidableEq K.Ty] [DecidableEq K.PathData] in
theorem visibleTypes_pushPath {v : HIRSimplePath K'} :
    (t.pushPath v).visibleTypes = t.visibleTypes := by
  rcases hb : t.regionPathBase with _ | b
  · simp [ReadTables.pushPath, ReadTables.visibleTypes, hb]
  · simp [ReadTables.pushPath, ReadTables.visibleTypes, hb]

/-- A path that is new gets the next number on both sides. -/
theorem addPath {d : K.PathData}
    (hf : s.simplePathIds.find d = none) :
    Synced P L place (s.addPath d) (t.pushPath (L.into.path (some d))) := by
  constructor
  · rw [visibleTypes_pushPath]
    exact h.types
  · rw [visibleTypes_pushPath]
    exact h.typeIds
  · rw [visiblePaths_pushPath]
    have hpush := h.paths.push (k := d) (v := L.into.path (some d)) rfl
    rwa [← h.pathsLength] at hpush
  · rw [visibleTypes_pushPath]
    exact h.typesLength
  · rw [visiblePaths_pushPath, RefTables.addPath, Ids.insert_new hf, List.length_append,
      List.length_append, h.pathsLength]
    rfl
  · exact h.typesNodup
  · exact Ids.nodup_insert h.pathsNodup
  · exact h.named
  · cases place with
    | outside since =>
      have ht : t.pushPath (L.into.path (some d)) =
          { t with simplePaths := t.simplePaths ++ [L.into.path (some d)] } := by
        rw [ReadTables.pushPath, h.stands.regionPathBase]
      rw [ht]
      refine { h.stands with
        simplePaths := h.stands.simplePaths.trans (List.prefix_append _ _)
        regionPathKeys := ?_ }
      rw [RefTables.addPath, if_neg (by rw [h.stands.inRegion]; decide)]
      exact h.stands.regionPathKeys
    | inside before tables =>
      have ht : t.pushPath (L.into.path (some d)) =
          { t with regionPaths := t.regionPaths ++ [L.into.path (some d)] } := by
        rw [ReadTables.pushPath, h.stands.regionPathBase]
      rw [ht]
      refine { h.stands with endRegion := ?_ }
      have hpaths : (s.simplePathIds.insert d s.simplePathIds.length).eraseAll
          (s.regionPathKeys ++ [d]) = s.simplePathIds.eraseAll s.regionPathKeys := by
        rw [Ids.eraseAll_insert hf _ (List.mem_append_right _ List.mem_cons_self),
          Ids.eraseAll_absent hf]
      rw [← h.stands.endRegion]
      simp only [RefTables.endRegion, RefTables.addPath, if_pos h.stands.inRegion, hpaths]

end Synced

/-! ## 3. What is added -/

namespace Since

variable {L : Loaded H I} {age : Nat} {s₀ s : RefTables K}

omit [DecidableEq K.Ty] [DecidableEq K.PathData] in
theorem noteType (h : Since P L age s₀ s) (ty : K.Ty) : Since P L age s₀ (s.noteType ty) := by
  rw [RefTables.noteType]
  split
  · exact ⟨h.inRegion, fun k hk => List.mem_append_left _ (h.keys k hk), h.names⟩
  · exact h

omit [DecidableEq K.PathData] in
/-- A type is added that is less deep. -/
theorem addType (h : Since P L age s₀ s) (hd : Distinct P L) {ty : K.Ty}
    (hname : s.types.find (P.key ty) = none) (ha : L.age (.type ty) < age) :
    Since P L age s₀ (s.addType ty (P.key ty)) := by
  rw [Synced.addType_eq hname]
  refine ⟨h.inRegion, h.keys, fun t' ht' hn => ?_⟩
  have hne : P.key t' ≠ P.key ty := by
    intro he
    have hage : L.age (.type t') = L.age (.type ty) :=
      congrArg (fun v => I.age (.type v)) (hd.alike t' ty he)
    omega
  show (Ids.insert _ _ _).find _ = none
  rw [Ids.insert_new hname, Ids.find_append, h.names t' ht' hn, if_neg hne]
  rfl

end Since

/-! ## 4. One type, one path -/

/-- The invariant in the writer's state and the reader's, and what was added since `s₀`. -/
abbrev Steady (P : Printed H) (L : Loaded H I) (place : Place K K') (age : Nat)
    (s₀ : RefTables K) (s : RefTables K) (t : ReadTables K') : Prop :=
  Synced P L place s t ∧ Since P L age s₀ s

instance : MayCount (· ≠ endless) := ⟨by decide⟩

/-- `w` is read as `a`; the writer may stop, but it comes to an end. -/
abbrev RefsSave {α : Type} (strings : List RcString) (P : Printed H) (L : Loaded H I)
    (place : Place K K') (age : Nat) (s₀ : RefTables K) (w : RefOut K) (r : RefIn K' α) (a : α) :
    Prop :=
  SavesOr (· ≠ endless) strings (Steady P L place age s₀) w r a

variable {strings : List RcString} {L : Loaded H I} {place : Place K K'} {age : Nat}
  {s₀ : RefTables K}

theorem typeAt_of {idx : Nat} {v : K'.Ty} {t : Reader (ReadTables K')}
    (h : entryAt t.refs.types t.refs.regionTypes t.refs.regionTypeBase idx = some v)
    (rest : List Byte) : typeAt idx rest t = .ok (v, rest, t) := by
  rw [typeAt, h]

theorem pathAt_of {idx : Nat} {v : HIRSimplePath K'} {t : Reader (ReadTables K')}
    (h : entryAt t.refs.simplePaths t.refs.regionPaths t.refs.regionPathBase idx = some v)
    (rest : List Byte) : pathAt idx rest t = .ok (v, rest, t) := by
  rw [pathAt, h]

/-- A type that is met, and will be forgotten with the region. -/
abbrev Met (P : Printed H) (L : Loaded H I) (place : Place K K') (age : Nat) (s₀ : RefTables K)
    (ty : K.Ty) (s : RefTables K) (t : ReadTables K') : Prop :=
  Steady P L place age s₀ s t ∧ (s.inRegion = true → ty ∈ s.regionTypeKeys)

theorem met_noteType {ty : K.Ty} {s : RefTables K} {t : ReadTables K'}
    (hs : Steady P L place age s₀ s t) (hf : s.typeIds.find ty = none) :
    Met P L place age s₀ ty (s.noteType ty) t := by
  refine ⟨⟨hs.1.noteType hf, hs.2.noteType ty⟩, fun hr => Synced.mem_noteType ?_⟩
  rw [RefTables.noteType] at hr
  split at hr
  · assumption
  · exact hr

/-- A type whose text is known. -/
theorem cached_saves (hd : Distinct P L) {ty : K.Ty} {id : Nat} {fresh : RefIn K' K'.Ty} :
    SavesFrom (· ≠ endless) strings
      (fun s t => Met P L place age s₀ ty s t ∧ s.types.find (P.key ty) = some id)
      (Steady P L place age s₀)
      (do changeRefs (·.addTypeId ty id); writeCount id)
      (do let idx ← readCount; if idx ≠ FRESH then typeAt idx else fresh) (L.into.type ty) := by
  have hadd : SavesFrom (· ≠ endless) strings
      (fun s t => Met P L place age s₀ ty s t ∧ s.types.find (P.key ty) = some id)
      (fun s t => Steady P L place age s₀ s t ∧ s.types.find (P.key ty) = some id)
      (changeRefs (·.addTypeId ty id)) (pure () : RefIn K' Unit) () :=
    SavesFrom.change fun s t hs => ⟨⟨hs.1.1.1.addTypeId hs.2 hs.1.2, { hs.1.1.2 with }⟩, hs.2⟩
  refine hadd.after (Carries.finish (f := fun t => t) (count_saves id) fun s t hs rest => ?_)
  rw [if_pos (Nat.ne_of_lt (hs.2.1.1.nameId_lt hd hs.2.2)), typeAt_of (hs.2.1.1.name_at hs.2.2)]
  exact ⟨rfl, hs.1, hs.2.1⟩

/-- A type whose text is new: what is in it comes first. -/
theorem fresh_saves (hd : Distinct P L) {ty : K.Ty} {w : RefOut K} {r : RefIn K' (HIRType K')}
    (ha : L.age (.type ty) < age)
    (hdata : ∀ s₁, RefsSave strings P L place (L.age (.type ty)) s₁ w r
      ((H.type ty).map L.into.read)) :
    SavesFrom (· ≠ endless) strings
      (fun s t => Met P L place age s₀ ty s t ∧ s.types.find (P.key ty) = none)
      (Steady P L place age s₀) (do w; changeRefs (·.addType ty (P.key ty)))
      (do
        let data ← r
        readRefs (·.pushType (I.type data))
        return I.type data) (L.into.type ty) := by
  refine SavesFrom.given fun s₁ => ?_
  -- what is known of the tables before what is in the type is written
  have hinner : SavesFrom (· ≠ endless) strings
      (fun s t => (Met P L place age s₀ ty s t ∧ s.types.find (P.key ty) = none) ∧ s = s₁)
      (fun s t => Steady P L place (L.age (.type ty)) s₁ s t ∧ (Since P L age s₀ s₁ ∧
        s₁.types.find (P.key ty) = none ∧ (s₁.inRegion = true → ty ∈ s₁.regionTypeKeys)))
      w r ((H.type ty).map L.into.read) := by
    refine SavesFrom.imp (SavesFrom.frame _ (hdata s₁)) (fun s t hs => ?_) fun s t hs => hs
    obtain ⟨⟨⟨⟨hsync, hsince⟩, hmet⟩, hname⟩, rfl⟩ := hs
    exact ⟨⟨hsync, Since.refl⟩, hsince, hname, hmet⟩
  refine hinner.bind (Carries.changes (g := fun t => { t with
    refs := t.refs.pushType (L.into.type ty) }) (fun s t hs => ?_) (fun rest t => ?_) fun s h => h)
  · obtain ⟨hstr, ⟨hsync, hnew⟩, hsince, hname, hmet⟩ := hs
    have hname' := hnew.names ty (Nat.le_refl _) hname
    have hmet' : s.refs.inRegion = true → ty ∈ s.refs.regionTypeKeys := by
      intro hr
      exact hnew.keys ty (hmet (hnew.inRegion ▸ hr))
    exact ⟨hstr, hsync.addType hd hname' hmet',
      (hsince.trans hnew (Nat.le_of_lt ha)).addType hd hname' ha⟩
  · rw [← L.type_eq]
    rfl

/-- A type: its index, or its parts. -/
theorem type_saves (hd : Distinct P L) {w : Node K → RefOut K} {r : NodeReader K'} {ty : K.Ty}
    (ha : L.age (.type ty) < age)
    (hdata : ∀ s₁, RefsSave strings P L place (L.age (.type ty)) s₁
      (serialiseTypeData H w (H.type ty)) (deserialiseTypeData I r)
      ((H.type ty).map L.into.read)) :
    RefsSave strings P L place age s₀ (serialiseType H w P ty) (deserialiseType I r)
      (L.into.type ty) := by
  unfold serialiseType
  refine SavesFrom.look fun known => ?_
  rcases known with _ | id
  · -- a pointer that is met for the first time
    have hnote : SavesFrom (· ≠ endless) strings
        (fun s t => Steady P L place age s₀ s t ∧ s.typeIds.find ty = none)
        (Met P L place age s₀ ty) (changeRefs (·.noteType ty)) (pure () : RefIn K' Unit) () :=
      SavesFrom.change fun s t hs => met_noteType hs.1 hs.2
    refine hnote.after (SavesFrom.look fun it => ?_)
    rcases it with _ | id
    · exact (count_saves FRESH).bind (object_saves _ (fresh_saves hd ha hdata))
    · exact cached_saves hd
  · -- a pointer that is known
    refine Carries.finish (f := fun t => t) (count_saves id) fun s t hs rest => ?_
    rw [if_pos (Nat.ne_of_lt (hs.2.1.1.typeId_lt hd hs.2.2)), typeAt_of (hs.2.1.1.type_at hs.2.2)]
    exact ⟨rfl, hs.1, hs.2.1⟩

omit [DecidableEq K.Ty] [DecidableEq K.PathData] in
theorem list_saves {α γ : Type} {stop : WriteStop → Prop} [MayCount stop]
    {Q : RefTables K → ReadTables K' → Prop} {t : String} {w : γ → RefOut K} {r : RefIn K' α}
    {f : γ → α} {l : List γ} (h : ∀ c ∈ l, SavesOr stop strings Q (w c) r (f c)) :
    SavesOr stop strings Q (serialiseList t w l) (deserialiseThinvec t r) (l.map f) :=
  object_saves _ ((count_saves l.length).bind (Carries.list h))

/-- A path that is new: its names, then the next number on both sides. -/
theorem freshPath_saves {d : K.PathData} :
    SavesFrom (· ≠ endless) strings
      (fun s t => Steady P L place age s₀ s t ∧ s.simplePathIds.find d = none)
      (Steady P L place age s₀)
      (do
        serialiseList "RcString" writeIstring (H.members d)
        changeRefs (·.addPath d))
      (do
        let members ← deserialiseThinvec "RcString" readIstring
        readRefs (·.pushPath (I.pathOf members))
        return I.pathOf members) (L.into.path (some d)) := by
  have hpath : L.into.path (some d) = I.pathOf (H.members d) := L.path_eq (some d)
  have hnames : SavesOr (· ≠ endless) strings
      (fun s t => Steady P L place age s₀ s t ∧ s.simplePathIds.find d = none)
      (serialiseList "RcString" writeIstring (H.members d))
      (deserialiseThinvec "RcString" readIstring) ((H.members d).map id) :=
    list_saves fun c _ => istring_saves c
  rw [List.map_id] at hnames
  refine hnames.bind (Carries.changes (g := fun t => { t with
    refs := t.refs.pushPath (L.into.path (some d)) }) (fun s t hs => ?_) (fun rest t => ?_)
    fun s h => h)
  · obtain ⟨hstr, ⟨hsync, hsince⟩, hf⟩ := hs
    exact ⟨hstr, hsync.addPath hf, { hsince with }⟩
  · rw [hpath]
    rfl

/-- A path: its index, or its names. -/
theorem simplepath_saves (hd : Distinct P L) (path : HIRSimplePath K) :
    RefsSave strings P L place age s₀ (serialiseSimplepath H path) (deserialiseSimplepath I)
      (L.into.path path) := by
  cases path with
  | none =>
    rw [L.path_eq]
    exact (count_saves SIMPLE_PATH_EMPTY).last rfl
  | some d =>
    refine SavesFrom.look fun known => ?_
    rcases known with _ | id
    · exact (count_saves SIMPLE_PATH_FRESH).bind freshPath_saves
    · refine Carries.finish (f := fun t => t) (count_saves id) fun s t hs rest => ?_
      have hlt := hs.2.1.1.pathId_lt hd hs.2.2
      have hne : id ≠ SIMPLE_PATH_FRESH := by
        unfold SIMPLE_PATH_EMPTY at hlt
        unfold SIMPLE_PATH_FRESH
        omega
      rw [if_neg (Nat.ne_of_lt hlt), if_pos hne, pathAt_of (hs.2.1.1.path_at hs.2.2)]
      exact ⟨rfl, hs.1, hs.2.1⟩

end Trustme.Metadata
