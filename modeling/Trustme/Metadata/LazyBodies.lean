/-
  Subject:   The bodies of functions, which the reader skips and decodes later:
             `serialiseFunctionBody`, `deserialiseFunctionBody` and `decodeBody`
             (hir_main_bindings.cpp); and what all indices of a crate mean.

  * `serialiseFunctionBody`, `decodeBody`: a body is a region of the tables;
  * `Item`, `Ask`, `Answer`: a crate, and a reader that is asked in any order;
  * `crate_answers`: every reference is read as what was written;
  * `refs_confused`: not so for two types that print alike.
-/
import Mathlib.Algebra.Order.BigOperators.Group.List
import Trustme.Metadata.RefParts

namespace Trustme.Metadata

open Trustme.Lib

variable {K K' : Pointers}

/-! ## 1. Function bodies -/

/-- `reserveCount` before and `finishCount` after a part: its length comes first. -/
def sized {ω : Type} (w : Out ω Unit) : Out ω Unit := fun s =>
  match w s with
  | .error e => .error e
  | .ok (_, bs, s) =>
    if bs.length ≤ 0xFFFFFFFF then .ok ((), leBytes 4 bs.length ++ bs, s) else .error .count

section Writer

variable [DecidableEq K.Ty] [DecidableEq K.PathData] (H : Heap K) (w : Node K → RefOut K)

/-- The region of a body. -/
def serialiseRegion (mir : BodyRefs K) : RefOut K := do
  changeRefs RefTables.beginRegion
  serialiseMir H w mir
  changeRefs RefTables.endRegion

def serialiseFunctionBody (exp : HIRExprPtr K) : RefOut K :=
  object "HIR::ExprPtr".toList do
    writeOptional (fun b => do
      let inRegion ← lookRefs (·.inRegion)
      Write.check (!inRegion) (.bug "!inRegion")
      sized (serialiseRegion H w b.1)
      writeOptional (w ∘ .type) b.2) exp.mir
    serialiseVec "HIRType const*" (w ∘ .type) exp.erasedTypes

end Writer

/-- `pool.make<MIRLazyBody>(..)` -/
def makeLazyBody : RefIn K Unit := fun bs t =>
  .ok ((), bs, { t with refs := { t.refs with
    bodies := t.refs.bodies ++ [⟨bs, t.refs.types.length, t.refs.simplePaths.length⟩] } })

section Reader

variable (I : Interner K) (r : NodeReader K)

/-- The body is put into the pool and skipped. -/
def skipBody : RefIn K Unit := do
  let length ← readCount
  makeLazyBody
  let _ ← Read.take length (.bug "at <= static_cast<size_t>(end - begin)")
  return ()

def deserialiseFunctionBody : RefIn K (Option (Option K.Ty) × List K.Ty) :=
  inObject "HIR::ExprPtr".toList do
    let mir ← readOptional do
      skipBody
      readOptional r.type
    let erasedTypes ← deserialiseVec "HIRType const*" r.type
    return (mir, erasedTypes)

/-- Reads on from `body`, and goes back to where the reader was. -/
def decodeBody (body : LazyBody) : RefIn K (BodyRefs K) := fun bs t =>
  if t.refs.regionTypeBase.isSome || t.refs.regionPathBase.isSome then
    .error (.bug "regionTypeBase == NO_REGION && regionPathBase == NO_REGION")
  else
    match deserialiseMir I r body.stream { t with refs := { t.refs with
        regionTypeBase := some body.typeBase, regionPathBase := some body.pathBase } } with
    | .error e => .error e
    | .ok (mir, _, t) => .ok (mir, bs, { t with refs := { t.refs with
        regionTypeBase := none, regionPathBase := none, regionTypes := [], regionPaths := [] } })

end Reader

/-! ## 2. A crate, and a reader of it -/

/-- What a crate refers to outside of bodies, and its functions. -/
inductive Item (K : Pointers) where
  | type (t : K.Ty)
  | path (p : HIRSimplePath K)
  | function (exp : HIRExprPtr K)

def Item.refs : Item K → List (Node K)
  | .type t => [.type t]
  | .path _ => []
  | .function exp => exp.refs

section Crate

variable [DecidableEq K.Ty] [DecidableEq K.PathData]

def serialiseItem (H : Heap K) (w : Node K → RefOut K) : Item K → RefOut K
  | .type t => w (.type t)
  | .path p => serialiseSimplepath H p
  | .function exp => serialiseFunctionBody H w exp

def serialiseCrate (H : Heap K) (P : Printed H) (n : Nat) (crate : List (Item K)) : RefOut K :=
  Write.each (serialiseItem H (serialiseNode H P n)) crate

end Crate

/-- What a reader is asked for: the next item, of a known kind, or a body it has skipped. -/
inductive Ask where
  | type
  | path
  | function
  | body (k : Nat)
  deriving DecidableEq

inductive Answer (K : Pointers) where
  | type (t : K.Ty)
  | path (p : HIRSimplePath K)
  | function (resultType : Option (Option K.Ty)) (erasedTypes : List K.Ty)
  | body (mir : BodyRefs K)

def bodyAt (I : Interner K) (r : NodeReader K) (k : Nat) : RefIn K (BodyRefs K) := fun bs t =>
  match t.refs.bodies[k]? with
  | some body => decodeBody I r body bs t
  | none => .error (.bug "no such body")

def answer (I : Interner K) (r : NodeReader K) : Ask → RefIn K (Answer K)
  | .type => do
      let t ← r.type
      return .type t
  | .path => do
      let p ← deserialiseSimplepath I
      return .path p
  | .function => do
      let e ← deserialiseFunctionBody r
      return .function e.1 e.2
  | .body k => do
      let mir ← bodyAt I r k
      return .body mir

def answers (I : Interner K) (r : NodeReader K) : List Ask → RefIn K (List (Answer K))
  | [] => pure []
  | ask :: asks => do
      let a ← answer I r ask
      let rest ← answers I r asks
      return a :: rest

/-- What the next item is asked for as, what the answer is, and the body that is skipped. -/
def Item.ask : Item K → Ask
  | .type _ => .type
  | .path _ => .path
  | .function _ => .function

def Item.told (m : Renaming K K') : Item K → Answer K'
  | .type t => .type (m.type t)
  | .path p => .path (m.path p)
  | .function exp => .function (exp.mir.map (·.2.map m.type)) (exp.erasedTypes.map m.type)

def Item.bodies : Item K → List (BodyRefs K)
  | .type _ | .path _ => []
  | .function exp => (exp.mir.map Prod.fst).toList

/-- What is to be answered, of a crate with the items `items` to come and the bodies `bodies`
    behind: nothing, if it is asked for another kind of item or for a body that is not yet there. -/
def told (m : Renaming K K') : List Ask → List (Item K) → List (BodyRefs K) →
    Option (List (Answer K'))
  | [], _, _ => some []
  | .body k :: asks, items, bodies => do
      let mir ← bodies[k]?
      let rest ← told m asks items bodies
      return .body (mir.map (Ref.map m)) :: rest
  | _ :: _, [], _ => none
  | ask :: asks, item :: items, bodies =>
    if ask = item.ask then do
      let rest ← told m asks items (bodies ++ item.bodies)
      return item.told m :: rest
    else none

/-! ## 3. Regions -/

section Regions

variable {H : Heap K} {P : Printed H} {I : Interner K'} [DecidableEq K.Ty] [DecidableEq K.PathData]
  {strings : List RcString} {L : Loaded H I} {w : Node K → RefOut K} {r : NodeReader K'}

/-- What a body refers to comes back, wherever it is read. -/
def BodySaves (strings : List RcString) (P : Printed H) (L : Loaded H I) (w : Node K → RefOut K)
    (r : NodeReader K') (mir : BodyRefs K) : Prop :=
  ∀ {place : Place K K'} {s₀ : RefTables K}, ∃ age, RefsSave strings P L place age s₀
    (serialiseMir H w mir) (deserialiseMir I r) (mir.map (Ref.map L.into.read))

/-- The tables of a reader that was as `since` when a body was skipped, once it decodes the body. -/
def ReadTables.enter (t : ReadTables K') (typeBase pathBase : Nat) : ReadTables K' :=
  { t with regionTypeBase := some typeBase, regionPathBase := some pathBase }

variable {since t : ReadTables K'}

theorem Outside.endRegion_beginRegion {s : RefTables K}
    (h : Outside since s t) : s.beginRegion.endRegion = s := by
  obtain ⟨types, typeIds, simplePathIds, inRegion, keys, names, pathKeys⟩ := s
  obtain ⟨hr, hk, hn, hp⟩ := h
  simp only at hr hk hn hp
  subst hr hk hn hp
  simp [RefTables.beginRegion, RefTables.endRegion, Ids.eraseAll]

/-- Outside of regions, later tables than `since`. -/
structure Later (since t : ReadTables K') : Prop where
  regionTypeBase : t.regionTypeBase = none
  regionPathBase : t.regionPathBase = none
  regionTypes : t.regionTypes = []
  regionPaths : t.regionPaths = []
  types : since.types <+: t.types
  simplePaths : since.simplePaths <+: t.simplePaths

omit [DecidableEq K.Ty] [DecidableEq K.PathData] in
theorem Outside.later {s : RefTables K} (h : Outside since s t) :
    Later since t := { h with }

/-- A body is entered: the tables mean what they meant when it was written. -/
theorem Synced.enter {since t : ReadTables K'} {s : RefTables K}
    (h : Synced P L (.outside since) s since) (ht : Later since t) :
    Synced P L (.inside s t) s.beginRegion (t.enter since.types.length
      since.simplePaths.length) := by
  have htypes : (t.enter since.types.length since.simplePaths.length).visibleTypes =
      since.visibleTypes := by
    have htake := (List.prefix_iff_eq_take.1 ht.types).symm
    rw [ReadTables.visibleTypes, ReadTables.visibleTypes, h.stands.regionTypeBase]
    show t.types.take since.types.length ++ t.regionTypes = since.types
    rw [htake, ht.regionTypes, List.append_nil]
  have hpaths : (t.enter since.types.length since.simplePaths.length).visiblePaths =
      since.visiblePaths := by
    have htake := (List.prefix_iff_eq_take.1 ht.simplePaths).symm
    rw [ReadTables.visiblePaths, ReadTables.visiblePaths, h.stands.regionPathBase]
    show t.simplePaths.take since.simplePaths.length ++ t.regionPaths = since.simplePaths
    rw [htake, ht.regionPaths, List.append_nil]
  have htypesLength : s.types.length = since.types.length := by
    rw [h.typesLength, ReadTables.visibleTypes, h.stands.regionTypeBase]
    rfl
  have hpathsLength : s.simplePathIds.length = since.simplePaths.length := by
    rw [h.pathsLength, ReadTables.visiblePaths, h.stands.regionPathBase]
    rfl
  constructor
  · rw [htypes]
    exact h.types
  · rw [htypes]
    exact h.typeIds
  · rw [hpaths]
    exact h.paths
  · rw [htypes]
    exact h.typesLength
  · rw [hpaths]
    exact h.pathsLength
  · exact h.typesNodup
  · exact h.pathsNodup
  · exact h.named
  · exact
      { inRegion := rfl
        endRegion := h.stands.endRegion_beginRegion
        types := rfl
        simplePaths := rfl
        regionTypeBase := congrArg some htypesLength.symm
        regionPathBase := congrArg some hpathsLength.symm
        typesLength := htypesLength ▸ ht.types.length_le
        pathsLength := hpathsLength ▸ ht.simplePaths.length_le
        bodies := rfl }

/-- The body is decoded as `mir` whenever it is, and the reader's tables are as before. -/
def Decodes (I : Interner K') (r : NodeReader K') (strings : List RcString) (since : ReadTables K')
    (body : LazyBody) (mir : BodyRefs K') : Prop :=
  ∀ (t : Reader (ReadTables K')) (bs : List Byte), t.strings = strings → Later since t.refs →
    decodeBody I r body bs t = .ok (mir, bs, t)

theorem Later.leave {t' : ReadTables K'} {s s' : RefTables K} (h : Later since t)
    (h' : Inside s t s' t') : { t' with
      regionTypeBase := none, regionPathBase := none, regionTypes := [], regionPaths := [] } =
        t := by
  obtain ⟨types, paths, regionTypes, regionPaths, typeBase, pathBase, bodies⟩ := t
  obtain ⟨htb, hpb, hrt, hrp, -, -⟩ := h
  obtain ⟨-, -, ht, hp, -, -, -, -, hb⟩ := h'
  simp only at htb hpb hrt hrp ht hp hb
  rw [ht, hp, hb, htb, hpb, hrt, hrp]

/-- What was written as a region is decoded. -/
theorem region_decodes {mir : BodyRefs K} (hmir : BodySaves strings P L w r mir)
    {s s' : Writer (RefTables K)} {bs rest : List Byte}
    (h : Synced P L (.outside since) s.refs since)
    (hw : serialiseMir H w mir { s with refs := s.refs.beginRegion } = .ok ((), bs, s'))
    (hk : s'.istrings <+: strings) :
    Decodes I r strings since ⟨bs ++ rest, since.types.length, since.simplePaths.length⟩
        (mir.map (Ref.map L.into.read)) ∧
      s'.refs.endRegion = s.refs := by
  have hread : ∀ t : Reader (ReadTables K'), t.strings = strings → Later since t.refs →
      ∃ t' : Reader (ReadTables K'), deserialiseMir I r (bs ++ rest) { t with
          refs := t.refs.enter since.types.length since.simplePaths.length } =
          .ok (mir.map (Ref.map L.into.read), rest, t') ∧ t'.strings = strings ∧
        Inside s.refs t.refs s'.refs t'.refs := by
    intro t hstr ht
    obtain ⟨age, hsaves⟩ := @hmir (.inside s.refs t.refs) s.refs.beginRegion
    obtain ⟨t', hr, hstr', hsync, _⟩ := hsaves.reads hw hk rest
      (t := { t with refs := t.refs.enter since.types.length since.simplePaths.length })
      ⟨hstr, h.enter ht, Since.refl⟩
    exact ⟨t', hr, hstr', hsync.stands⟩
  constructor
  · intro t bs' hstr ht
    obtain ⟨t', hr, hstr', hin⟩ := hread t hstr ht
    rw [decodeBody, ht.regionTypeBase, ht.regionPathBase]
    simp only [Option.isSome_none, Bool.or_self, Bool.false_eq_true, if_false]
    rw [ReadTables.enter] at hr
    rw [hr]
    simp only [ht.leave hin]
    rw [show t'.strings = t.strings from hstr'.trans hstr.symm]
  · obtain ⟨t', -, -, hin⟩ := hread ⟨strings, since⟩ rfl h.stands.later
    exact hin.endRegion

theorem serialiseRegion_run (mir : BodyRefs K) (s : Writer (RefTables K)) :
    serialiseRegion H w mir s =
      match serialiseMir H w mir { s with refs := s.refs.beginRegion } with
      | .error e => .error e
      | .ok (_, bs, s') => .ok ((), bs, { s' with refs := s'.refs.endRegion }) := by
  change Write.bind (changeRefs RefTables.beginRegion) (fun _ =>
    Write.bind (serialiseMir H w mir) fun _ => changeRefs RefTables.endRegion) s = _
  simp only [Write.bind, changeRefs, Write.change]
  rcases serialiseMir H w mir { s with refs := s.refs.beginRegion } with e | ⟨_, bs, s'⟩
  · rfl
  · simp

end Regions

/-! ## 4. A crate -/

section Crate

variable {H : Heap K} {P : Printed H} {I : Interner K'} [DecidableEq K.Ty] [DecidableEq K.PathData]
  {strings : List RcString} {L : Loaded H I} {w : Node K → RefOut K} {r : NodeReader K'}

/-- Writer and reader between two items, with the bodies that were skipped. -/
structure Ready (r : NodeReader K') (strings : List RcString) (P : Printed H) (L : Loaded H I)
    (bodies : List (BodyRefs K)) (s : RefTables K) (t : ReadTables K') : Prop where
  synced : Synced P L (.outside t) s t
  bodies : List.Forall₂
    (fun mir body => Decodes I r strings t body (mir.map (Ref.map L.into.read))) bodies t.bodies

theorem Decodes.later {since since' : ReadTables K'} {body : LazyBody} {mir : BodyRefs K'}
    (h : Decodes I r strings since body mir) (ht : since.types <+: since'.types)
    (hp : since.simplePaths <+: since'.simplePaths) : Decodes I r strings since' body mir :=
  fun t bs hstr hl => h t bs hstr
    { hl with types := ht.trans hl.types, simplePaths := hp.trans hl.simplePaths }

variable {bodies : List (BodyRefs K)}

/-- What comes back outside of bodies, leaves the skipped bodies as they are. -/
theorem between {α : Type} (age : Nat) {w' : RefOut K} {r' : RefIn K' α} {a : α}
    (h : ∀ since s₀, RefsSave strings P L (.outside since) age s₀ w' r' a) :
    SavesOr (· ≠ endless) strings (Ready r strings P L bodies) w' r' a where
  stops := (h .empty .empty).stops
  kept := (h .empty .empty).kept
  reads {s _ s'} hok hk t rest hs := by
    obtain ⟨t', hr, hstr, hsync, _⟩ := (h t.refs s.refs).reads hok hk rest
      ⟨hs.1, hs.2.synced, Since.refl⟩
    have hout : Outside t.refs s'.refs t'.refs := hsync.stands
    refine ⟨t', hr, hstr, ⟨{ hsync with stands := ?_ }, ?_⟩⟩
    · exact { hout with
        types := List.prefix_refl _, simplePaths := List.prefix_refl _, bodies := rfl }
    · rw [hout.bodies]
      exact hs.2.bodies.imp fun mir body hd => hd.later hout.types hout.simplePaths

/-- A body is skipped, and can be decoded from then on. -/
theorem region_saves {mir : BodyRefs K} (hmir : BodySaves strings P L w r mir) :
    SavesFrom (· ≠ endless) strings (Ready r strings P L bodies)
      (Ready r strings P L (bodies ++ [mir])) (sized (serialiseRegion H w mir)) skipBody () where
  stops {s e} he := by
    obtain ⟨age, hsaves⟩ := @hmir (.outside .empty) .empty
    rw [sized, serialiseRegion_run] at he
    rcases hm : serialiseMir H w mir { s with refs := s.refs.beginRegion } with e' | ⟨_, bs, s'⟩
    · rw [hm] at he
      cases he
      exact hsaves.stops hm
    · simp only [hm] at he
      split at he
      · cases he
      · cases he
        decide
  kept {s bs s'} hok hk := by
    obtain ⟨age, hsaves⟩ := @hmir (.outside .empty) .empty
    rw [sized, serialiseRegion_run] at hok
    rcases hm : serialiseMir H w mir { s with refs := s.refs.beginRegion } with e' | ⟨_, bs', s₁⟩
    · rw [hm] at hok
      cases hok
    · simp only [hm] at hok
      split at hok
      · cases hok
        have hkept := hsaves.kept hm hk
        exact hkept
      · cases hok
  reads {s bs s'} hok hk t rest hs := by
    rw [sized, serialiseRegion_run] at hok
    rcases hm : serialiseMir H w mir { s with refs := s.refs.beginRegion } with e' | ⟨_, bs', s₁⟩
    · rw [hm] at hok
      cases hok
    · simp only [hm] at hok
      split at hok
      · next hlen =>
        cases hok
        obtain ⟨hdec, hend⟩ := region_decodes hmir hs.2.synced hm hk
        refine ⟨{ t with refs := { t.refs with bodies := t.refs.bodies ++
          [⟨bs' ++ rest, t.refs.types.length, t.refs.simplePaths.length⟩] } }, ?_, hs.1, ?_⟩
        · rw [List.append_assoc, skipBody, Read.bind_of_ok (readCount_leBytes hlen _ _),
            Read.bind_of_ok (show makeLazyBody (bs' ++ rest) t = .ok ((), bs' ++ rest, _) from rfl)]
          have htake : Read.take bs'.length (ReadStop.bug "at <= static_cast<size_t>(end - begin)")
              (bs' ++ rest) = fun t : Reader (ReadTables K') => .ok (bs', rest, t) := by
            funext t
            rw [Read.take, if_neg (by rw [List.length_append]; omega), List.take_left,
              List.drop_left]
          rw [Read.bind_of_ok (congrFun htake _)]
          rfl
        · rw [hend]
          refine ⟨{ hs.2.synced with stands := ?_ }, ?_⟩
          · have hout : Outside t.refs s.refs t.refs := hs.2.synced.stands
            exact { hout with bodies := rfl }
          · refine List.rel_append (hs.2.bodies.imp fun _ _ hd => ?_) (.cons ?_ .nil)
            · exact hd.later (List.prefix_refl _) (List.prefix_refl _)
            · exact hdec.later (List.prefix_refl _) (List.prefix_refl _)
      · cases hok

/-- A function: its body is skipped, what stands behind the body is read. -/
theorem functionBody_saves {exp : HIRExprPtr K}
    (hmir : ∀ b ∈ exp.mir, BodySaves strings P L w r b.1)
    (htypes : ∀ {bodies t}, Node.type t ∈ exp.refs → SavesOr (· ≠ endless) strings
      (Ready r strings P L bodies) (w (.type t)) r.type (L.into.type t)) :
    SavesFrom (· ≠ endless) strings (Ready r strings P L bodies)
      (Ready r strings P L (bodies ++ (exp.mir.map Prod.fst).toList))
        (serialiseFunctionBody H w exp)
      (deserialiseFunctionBody r)
      (exp.mir.map (·.2.map L.into.type), exp.erasedTypes.map L.into.type) := by
  have herased : ∀ {bodies}, SavesOr (· ≠ endless) strings (Ready r strings P L bodies)
      (serialiseVec "HIRType const*" (w ∘ .type) exp.erasedTypes)
      (deserialiseVec "HIRType const*" r.type) (exp.erasedTypes.map L.into.type) :=
    vec_saves fun t ht => htypes (List.mem_append_right _ (List.mem_map_of_mem ht))
  refine object_saves _ ?_
  cases hm : exp.mir with
  | none =>
    rw [Option.map_none, Option.toList_none, List.append_nil]
    exact ((bool_saves false).bind (Carries.pure none)).bind herased.map
  | some b =>
    have hresult : ∀ {bodies}, SavesOr (· ≠ endless) strings (Ready r strings P L bodies)
        (writeOptional (w ∘ .type) b.2) (readOptional r.type) (b.2.map L.into.type) := by
      refine optional_saves _ fun t ht => htypes ?_
      refine List.mem_append_left _ (List.mem_flatMap.2 ⟨b, Option.mem_toList.2 hm, ?_⟩)
      exact List.mem_append_right _ (List.mem_map_of_mem (Option.mem_toList.2 ht))
    have hregion : SavesFrom (· ≠ endless) strings (Ready r strings P L bodies)
        (Ready r strings P L (bodies ++ [b.1]))
        (do
          let inRegion ← lookRefs (·.inRegion)
          Write.check (!inRegion) (.bug "!inRegion")
          sized (serialiseRegion H w b.1)
          writeOptional (w ∘ .type) b.2)
        (do skipBody; readOptional r.type) (b.2.map L.into.type) := by
      refine SavesFrom.look fun inRegion => ?_
      have hin : SavesFrom (· ≠ endless) strings
          (fun s t => Ready r strings P L bodies s t ∧ s.inRegion = inRegion)
          (Ready r strings P L bodies) (Write.check (!inRegion) (.bug "!inRegion"))
          (pure () : RefIn K' Unit) () :=
        SavesFrom.imp (Carries.may (by decide)) (fun _ _ hs => hs) fun _ _ hs => hs.1
      exact hin.after ((region_saves (hmir b hm)).bind hresult)
    exact ((bool_saves true).bind hregion.map).bind herased.map

/-- An item is answered as it was written. -/
theorem item_saves (hd : Distinct P L) {n : Nat} {item : Item K}
    (hn : ∀ x ∈ item.refs, L.age x < n) :
    SavesFrom (· ≠ endless) strings (Ready (nodeReader I n) strings P L bodies)
      (Ready (nodeReader I n) strings P L (bodies ++ item.bodies))
      (serialiseItem H (serialiseNode H P n) item) (answer I (nodeReader I n) item.ask)
      (item.told L.into.read) := by
  have htype : ∀ {t bodies}, Node.type t ∈ item.refs → SavesOr (· ≠ endless) strings
      (Ready (nodeReader I n) strings P L bodies) (serialiseNode H P n (.type t))
      (nodeReader I n).type (L.into.type t) := fun ht =>
    between _ fun since s₀ => node_saves hd n (hn _ ht) (hn _ ht)
  cases item with
  | type t =>
    rw [Item.bodies, List.append_nil]
    exact (htype List.mem_cons_self).map
  | path p =>
    rw [Item.bodies, List.append_nil]
    exact (between 0 fun since s₀ => simplepath_saves hd p).map
  | function exp =>
    refine (functionBody_saves (fun b hb => ?_) fun {_ t} ht => htype ht).map (f := fun e =>
      Answer.function e.1 e.2)
    intro place s₀
    refine ⟨n, mir_loads hd fun x hx => ?_⟩
    have hx' : x ∈ exp.refs := List.mem_append_left _ (List.mem_flatMap.2
      ⟨b, Option.mem_toList.2 hb, List.mem_append_left _ hx⟩)
    exact node_saves hd n (hn x hx') (hn x hx')

omit [DecidableEq K.Ty] [DecidableEq K.PathData] in
theorem told_item {ask : Ask} (h : ∀ k, ask ≠ .body k) {asks : List Ask} {items : List (Item K)}
    {m : Renaming K K'} {res : List (Answer K')}
    (ht : told m (ask :: asks) items bodies = some res) :
    ∃ item items' res', items = item :: items' ∧ ask = item.ask ∧ res = item.told m :: res' ∧
      told m asks items' (bodies ++ item.bodies) = some res' := by
  cases items with
  | nil => cases ask <;> first | cases ht | exact absurd rfl (h _)
  | cons item items =>
    have heq : told m (ask :: asks) (item :: items) bodies =
        if ask = item.ask then do
          let rest ← told m asks items (bodies ++ item.bodies)
          return item.told m :: rest
        else none := by
      cases ask <;> first | rfl | exact absurd rfl (h _)
    rw [heq] at ht
    split at ht
    · next hask =>
      obtain ⟨res', hres, he⟩ := Option.bind_eq_some_iff.1 ht
      cases he
      exact ⟨item, items, res', rfl, hask, rfl, hres⟩
    · cases ht

/-- What the writer keeps in its last state, it had before. -/
theorem crate_kept (hd : Distinct P L) {n : Nat} : ∀ {items : List (Item K)}
    {s s' : Writer (RefTables K)} {bs : List Byte},
    (∀ item ∈ items, ∀ x ∈ item.refs, L.age x < n) →
    serialiseCrate H P n items s = .ok ((), bs, s') → s'.istrings <+: strings →
      s.istrings <+: strings
  | [], _, _, _, _, hw, hk => by
    cases hw
    exact hk
  | item :: items, _, _, _, hn, hw, hk => by
    obtain ⟨_, _, _, _, hitem, hitems, _⟩ := Write.bind_ok hw
    have hsaves : SavesFrom (· ≠ endless) strings (Ready _ strings P L []) _ _ _ _ :=
      item_saves hd (hn item List.mem_cons_self)
    exact hsaves.kept hitem
      (crate_kept hd (fun i hi => hn i (List.mem_cons_of_mem _ hi)) hitems hk)

/-- Reader and crate, one question after the other. -/
theorem answers_told (hd : Distinct P L) {n : Nat} : ∀ {asks : List Ask} {items : List (Item K)}
    {bodies : List (BodyRefs K)} {res : List (Answer K')} {s s' : Writer (RefTables K)}
    {bs : List Byte} {t : Reader (ReadTables K')},
    (∀ item ∈ items, ∀ x ∈ item.refs, L.age x < n) →
    serialiseCrate H P n items s = .ok ((), bs, s') → s'.istrings <+: strings →
    inStep strings (Ready (nodeReader I n) strings P L bodies) s t →
    told L.into.read asks items bodies = some res →
      ∃ rest t', answers I (nodeReader I n) asks bs t = .ok (res, rest, t')
  | [], _, _, _, _, _, bs, t, _, _, _, _, htold => by
    cases htold
    exact ⟨bs, t, rfl⟩
  | ask :: asks, items, bodies, res, s, s', bs, t, hn, hw, hk, hs, htold => by
    by_cases hask : ∃ k, ask = .body k
    · -- a body that was skipped
      obtain ⟨k, rfl⟩ := hask
      obtain ⟨mir, hmir, htold⟩ := Option.bind_eq_some_iff.1 htold
      obtain ⟨res', hres, he⟩ := Option.bind_eq_some_iff.1 htold
      cases he
      obtain ⟨rest, t', hrun⟩ := answers_told hd hn hw hk hs hres
      obtain ⟨hk', hget⟩ := List.getElem?_eq_some_iff.1 hmir
      have hlen := hs.2.bodies.length_eq
      have hdec := hs.2.bodies.get hk' (hlen ▸ hk')
      have hbody : bodyAt I (nodeReader I n) k bs t =
          .ok (mir.map (Ref.map L.into.read), bs, t) := by
        rw [bodyAt, List.getElem?_eq_getElem (hlen ▸ hk')]
        have hget' : bodies.get ⟨k, hk'⟩ = mir := hget
        rw [← hget']
        exact hdec t bs hs.1 hs.2.synced.stands.later
      refine ⟨rest, t', ?_⟩
      rw [answers, answer, Read.bind_of_ok (Read.bind_of_ok hbody), Read.bind_of_ok hrun]
      rfl
    · -- the next item
      obtain ⟨item, items', res', rfl, rfl, rfl, hres⟩ :=
        told_item (fun k he => hask ⟨k, he⟩) htold
      obtain ⟨_, bs₁, s₁, bs₂, hitem, hitems, rfl⟩ := Write.bind_ok hw
      have hn' : ∀ item ∈ items', ∀ x ∈ item.refs, L.age x < n := fun i hi =>
        hn i (List.mem_cons_of_mem _ hi)
      obtain ⟨t₁, hread, hs₁⟩ := (item_saves hd (hn item List.mem_cons_self)).reads hitem
        (crate_kept hd hn' hitems hk) bs₂ hs
      obtain ⟨rest, t', hrun⟩ := answers_told hd hn' hitems hk hs₁ hres
      refine ⟨rest, t', ?_⟩
      rw [answers, Read.bind_of_ok hread, Read.bind_of_ok hrun]
      rfl

/-- The writer comes to an end. -/
theorem crate_ends (hd : Distinct P L) {n : Nat} : ∀ {items : List (Item K)}
    {s : Writer (RefTables K)} {e : WriteStop}, (∀ item ∈ items, ∀ x ∈ item.refs, L.age x < n) →
    serialiseCrate H P n items s = .error e → e ≠ endless
  | [], _, _, _, hw => by cases hw
  | item :: items, _, _, hn, hw => by
    have hsaves : SavesFrom (· ≠ endless) [] (Ready _ [] P L []) _ _ _ _ :=
      item_saves hd (hn item List.mem_cons_self)
    rcases Write.bind_error hw with he | ⟨_, _, _, _, he⟩
    · exact hsaves.stops he
    · exact crate_ends hd (fun i hi => hn i (List.mem_cons_of_mem _ hi)) he

theorem synced_empty : Synced P L (.outside .empty) .empty .empty where
  types := Ids.Points.nil
  typeIds := Ids.Points.nil
  paths := Ids.Points.nil
  typesLength := rfl
  pathsLength := rfl
  typesNodup := List.nodup_nil
  pathsNodup := List.nodup_nil
  named := fun _ h => nomatch h
  stands := ⟨rfl, rfl, rfl, rfl, rfl, rfl, rfl, rfl, List.prefix_refl _, List.prefix_refl _, rfl⟩

/-- **What the indices of a crate mean**: when types that print alike are the same, every type and
    path that items and bodies refer to is read as what was written, in whatever order the skipped
    bodies are decoded in between. -/
theorem crate_answers (hd : Distinct P L) (crate : List (Item K)) (n : Nat)
    (hn : ∀ item ∈ crate, ∀ x ∈ item.refs, L.age x < n) :
    serialiseCrate H P n crate ⟨[], .empty⟩ ≠ .error endless ∧
      ∀ bs s, serialiseCrate H P n crate ⟨[], .empty⟩ = .ok ((), bs, s) →
        ∀ asks res, told L.into.read asks crate [] = some res →
          ∃ rest t, answers I (nodeReader I n) asks bs ⟨s.istrings, .empty⟩ = .ok (res, rest, t) :=
  ⟨fun he => crate_ends hd hn he rfl, fun _ _ hw _ _ htold =>
    answers_told hd hn hw (List.prefix_refl _) ⟨rfl, synced_empty, .nil⟩ htold⟩

end Crate

/-! ## 5. Two types that print alike -/

/-- Types as they are told apart here, with how deep the others are. -/
inductive Shape where
  | u8
  | pointer (inner : Shape)
  | pattern (inner : Shape)
  | other (depth : Nat)
  deriving DecidableEq

def Shape.depth : Shape → Nat
  | .u8 => 0
  | .pointer inner | .pattern inner => inner.depth + 1
  | .other n => n

abbrev shapes : Pointers := ⟨Shape, RcString × List RcString, Nat, Nat, Nat⟩

def Shape.age : Node shapes → Nat
  | .type t => t.depth
  | .literal n | .unevaluated n | .traitpath n => n

/-- Deeper than everything in `l`. -/
def Shape.above (l : List (Node shapes)) : Nat := (l.map Shape.age).sum + 1

theorem Shape.age_lt_above {l : List (Node shapes)} {x : Node shapes} (h : x ∈ l) :
    Shape.age x < Shape.above l :=
  Nat.lt_succ_of_le (List.single_le_sum (fun _ _ => Nat.zero_le _) _ (List.mem_map_of_mem h))

def Shape.make : HIRType shapes → Shape
  | .Primitive .U8 => .u8
  | .Pointer .Shared t => .pointer t
  | .Pattern t ⟨true, []⟩ => .pattern t
  | d => .other (Shape.above d.refs)

theorem Shape.make_older (d : HIRType shapes) :
    ∀ x ∈ d.refs, Shape.age x < (Shape.make d).depth := by
  intro x hx
  unfold Shape.make
  split
  · cases hx
  · cases List.mem_singleton.1 hx
    exact Nat.lt_succ_self _
  · cases List.mem_singleton.1 hx
    exact Nat.lt_succ_self _
  · exact Shape.age_lt_above hx

def shapeInterner : Interner shapes where
  crateName := "core".toList
  crateName_ne := by decide
  path c cs := some (c, cs)
  type := Shape.make
  literal d := Shape.above (EncodedLiteral.refs d)
  unevaluated d := Shape.above d.refs
  traitpath d := Shape.above d.refs
  age := Shape.age
  type_older := Shape.make_older
  literal_older _ _ := Shape.age_lt_above
  unevaluated_older _ _ := Shape.age_lt_above
  traitpath_older _ _ := Shape.age_lt_above

/-- A writer with the types `T` alone. -/
abbrev typesOnly (T : Type) : Pointers := ⟨T, Empty, Empty, Empty, Empty⟩

def typesHeap {T : Type} (type : T → HIRType (typesOnly T)) : Heap (typesOnly T) :=
  ⟨type, Empty.elim, Empty.elim, Empty.elim, Empty.elim⟩

def typesInto {T : Type} {K' : Pointers} (type : T → K'.Ty) : Targets (typesOnly T) K' :=
  ⟨type, fun _ => none, Empty.elim, Empty.elim, Empty.elim⟩

def typesPrinted {T : Type} {type : T → HIRType (typesOnly T)} (text : T → Text)
    (h : ∀ t, text t = ((type t).map (typesInto text : Targets _ shown).whole).fmt) :
    Printed (typesHeap type) where
  text := typesInto text
  type_eq := h
  traitpath_eq := nofun
  path_eq p := by cases p with
    | none => rfl
    | some d => exact d.elim

def typesLoaded {T : Type} {type : T → HIRType (typesOnly T)} (into : T → Shape)
    (h : ∀ t, into t = Shape.make ((type t).map (typesInto into : Targets _ shapes).read)) :
    Loaded (typesHeap type) shapeInterner where
  into := typesInto into
  path_eq p := by cases p with
    | none => rfl
    | some d => exact d.elim
  type_eq := h
  literal_eq := nofun
  unevaluated_eq := nofun
  traitpath_eq := nofun

/-- `u8` and `*const u8`. -/
def plainTypes : Bool → HIRType (typesOnly Bool)
  | false => .Primitive .U8
  | true => .Pointer .Shared false

def plainText : Bool → Text
  | false => "u8".toList
  | true => "*const u8".toList

def plainShape : Bool → Shape
  | false => .u8
  | true => .pointer .u8

def plainPrinted : Printed (typesHeap plainTypes) :=
  typesPrinted plainText (by decide)

def plainLoaded : Loaded (typesHeap plainTypes) shapeInterner :=
  typesLoaded plainShape (by decide)

theorem plain_distinct : Distinct plainPrinted plainLoaded where
  alike := by decide
  types := ⟨[plainPrinted.key false, plainPrinted.key true], by decide, by decide⟩
  paths := ⟨[], by decide, nofun⟩

/-- A type is first met in a body, and again behind it. -/
def plainCrate : List (Item (typesOnly Bool)) :=
  [.function ⟨some ([.type true, .type false, .path none], none), [false]⟩, .type true]

theorem plain_answers :
    serialiseCrate (typesHeap plainTypes) plainPrinted 2 plainCrate ⟨[], .empty⟩ ≠ .error endless ∧
      ∀ bs s, serialiseCrate (typesHeap plainTypes) plainPrinted 2 plainCrate ⟨[], .empty⟩ =
          .ok ((), bs, s) →
        ∀ asks res, told plainLoaded.into.read asks plainCrate [] = some res →
          ∃ rest t, answers shapeInterner (nodeReader shapeInterner 2) asks bs
            ⟨s.istrings, .empty⟩ = .ok (res, rest, t) :=
  crate_answers plain_distinct plainCrate 2 (by
    simp only [plainCrate, List.mem_cons, List.not_mem_nil, or_false, forall_eq_or_imp, forall_eq]
    decide)

/-- A pointer to a type that is not null, and a type of pointers that are not null. -/
inductive PtrType where
  | byte
  | ptr
  | ptrPtr
  | nonNullPtr
  | ptrToNonNull
  | nonNullPtrPtr
  deriving DecidableEq

namespace PtrType

def type : PtrType → HIRType (typesOnly PtrType)
  | byte => .Primitive .U8
  | ptr => .Pointer .Shared byte
  | ptrPtr => .Pointer .Shared ptr
  | nonNullPtr => .Pattern ptr ⟨true, []⟩
  | ptrToNonNull => .Pointer .Shared nonNullPtr
  | nonNullPtrPtr => .Pattern ptrPtr ⟨true, []⟩

def text : PtrType → Text
  | byte => "u8".toList
  | ptr => "*const u8".toList
  | ptrPtr => "*const *const u8".toList
  | nonNullPtr => "*const u8 is !null".toList
  | ptrToNonNull | nonNullPtrPtr => "*const *const u8 is !null".toList

def shape : PtrType → Shape
  | byte => .u8
  | ptr => .pointer .u8
  | ptrPtr => .pointer (.pointer .u8)
  | nonNullPtr => .pattern (.pointer .u8)
  | ptrToNonNull => .pointer (.pattern (.pointer .u8))
  | nonNullPtrPtr => .pattern (.pointer (.pointer .u8))

def printed : Printed (typesHeap type) :=
  typesPrinted text (fun t => by cases t <;> rfl)

def loaded : Loaded (typesHeap type) shapeInterner :=
  typesLoaded shape (fun t => by cases t <;> rfl)

def crate : List (Item (typesOnly PtrType)) := [.type ptrToNonNull, .type nonNullPtrPtr]

/-- The second type is read as the first. -/
theorem refs_confused :
    ∃ bs s rest t, serialiseCrate (typesHeap type) printed 4 crate ⟨[], .empty⟩ = .ok ((), bs, s) ∧
      told loaded.into.read [.type, .type] crate [] =
        some [.type ptrToNonNull.shape, .type nonNullPtrPtr.shape] ∧
      answers shapeInterner (nodeReader shapeInterner 4) [.type, .type] bs ⟨s.istrings, .empty⟩ =
        .ok ([.type ptrToNonNull.shape, .type ptrToNonNull.shape], rest, t) ∧
      ptrToNonNull.shape ≠ nonNullPtrPtr.shape :=
  ⟨_, _, _, _, rfl, rfl, rfl, by decide⟩

end PtrType

end Trustme.Metadata
