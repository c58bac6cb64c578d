/-
  Subject:   What of an exported macro_rules arm another crate gets to see.

  * `receivedToken`, `receivedIdent`: what the reader makes of a token and of an identifier;
  * `arm_saves`: an arm is read as that throughout: the marks of tokens and identifiers, and the
    scopes of their contexts, are not written;
  * `armView`: what matching and expansion see of an arm, its contexts seen from the macro's own;
  * `Kept`: the arms of which nothing is lost: **`arm_kept_iff`**.
-/
import Trustme.Metadata.MacroArms
import Trustme.Metadata.MirRoundTrip

namespace Trustme.Metadata

open Trustme.Lib Trustme.Numeric

variable {ω ρ : Type}

/-! ## 1. What is received -/

section Received

variable (crateName : RcString) (pool : Ident.ObjPool)

/-- The path of a module in the crate itself gets the name of the crate. -/
def inCrate (p : Ident.ModPath) : Ident.ModPath :=
  if p.crate = [] then { p with crate := crateName } else p

def receivedHygiene (h : Ident.Hygiene) : Ident.Hygiene :=
  match h.modPath with
  | some p => (Ident.Hygiene.setModPath {} pool (inCrate crateName p)).1
  | none => {}

def receivedIdent (i : Ident) : Ident :=
  { hygiene := receivedHygiene crateName pool i.hygiene, name := i.name }

def receivedData : TokenData → TokenData
  | .Ident e => .Ident (receivedIdent crateName pool e)
  | data => data

def receivedToken (tok : Token) : Token :=
  { type := tok.type, data := receivedData crateName pool tok.data, spacing := tok.spacing }

end Received

/-! ## 2. The round trip -/

section Saves

variable {stop : WriteStop → Prop} [MayCount stop] {strings : List RcString} {refs : ω → ρ → Prop}
  {crateName : RcString} {pool : Ident.ObjPool}

theorem istrings_saves (l : List RcString) :
    SavesOr stop strings refs (serialiseVec "RcString" writeIstring l)
      (deserialiseVec "RcString" readIstring) l := by
  have h : SavesOr stop strings refs (serialiseVec "RcString" writeIstring l)
      (deserialiseVec "RcString" readIstring) (l.map id) := vec_saves fun v _ => istring_saves v
  rwa [List.map_id] at h

omit [MayCount stop] in
/-- What is not written is read as anything. -/
theorem refused_saves {α : Type} {e : WriteStop} (h : stop e) (r : In ρ α) (a : α) :
    SavesOr stop strings refs (Write.stop e) r a where
  stops he := by cases he; exact h
  kept hok := by cases hok
  reads hok := by cases hok

theorem hygiene_saves (hc : crateName ≠ []) (h : Ident.Hygiene) :
    SavesOr stop strings refs (serialiseHygiene h) (deserialiseHygine crateName pool)
      (receivedHygiene crateName pool h) := by
  refine object_saves _ ?_
  unfold receivedHygiene
  cases h.modPath with
  | none => exact (bool_saves false).bind (Carries.pure _)
  | some p =>
    refine (bool_saves true).bind ((istring_saves p.crate).bind ((istrings_saves p.ents).last ?_))
    dsimp only
    unfold inCrate
    by_cases hp : p.crate = []
    · rw [if_pos hp, if_pos hp, if_neg hc]
    · rw [if_neg hp, if_neg hp]

variable (hfrag : ∀ msg, stop (.bug msg)) (hc : crateName ≠ [])

include hfrag hc

theorem data_saves (data : TokenData) :
    SavesOr stop strings refs (serialiseTokenData data) (deserialiseTokendata crateName pool)
      (receivedData crateName pool data) := by
  cases data with
  | None => exact (tag_saves (by decide)).last rfl
  | Ident e =>
    exact (tag_saves (by decide)).bind ((hygiene_saves hc e.hygiene).bind
      (istring_saves e.name).map)
  | String value spelling =>
    exact (tag_saves (by decide)).bind ((string_saves value).bind (istring_saves spelling).map)
  | Integer datatype intval spelling =>
    exact (tag_saves (by decide)).bind ((enum_saves datatype).bind ((u128_saves intval).bind
      (istring_saves spelling).map))
  | Float datatype floatval spelling =>
    exact (tag_saves (by decide)).bind ((enum_saves datatype).bind ((float_saves floatval).bind
      (istring_saves spelling).map))
  | Fragment => exact (tag_saves (by decide)).bind (refused_saves (hfrag _) _ _)

omit hfrag hc in
omit [MayCount stop] in
theorem spacing_saves (spacing : TokenSpacing) :
    SavesOr stop strings refs (writeU8 (BitVec.ofNat 8 (CEnum.number spacing))) readEnum
      spacing := by
  have hread : SavesOr stop strings refs (writeU8 (BitVec.ofNat 8 (CEnum.number spacing))) readTag
      (CEnum.number spacing) := by
    refine (u8_saves _).last ?_
    rw [BitVec.toNat_ofNat, Nat.mod_eq_of_lt (CEnum.number_lt spacing)]
  refine hread.last ?_
  rw [CEnum.named_number]

theorem token_saves (tok : Token) :
    SavesOr stop strings refs (serialiseToken tok) (deserialiseToken crateName pool)
      (receivedToken crateName pool tok) :=
  (enum_saves tok.type).bind ((data_saves hfrag hc tok.data).bind (spacing_saves tok.spacing).map)

theorem check_saves (e : SimplePatIfCheck Token) :
    SavesOr stop strings refs (serialiseSimplePatIfCheck e)
      (deserialiseSimplepatifcheck crateName pool)
      (e.map (receivedToken crateName pool)) :=
  (enum_saves e.ty).bind (token_saves hfrag hc e.tok).map

theorem simplePatEnt_saves (pe : SimplePatEnt Token) :
    SavesOr stop strings refs (serialiseSimplePatEnt pe) (deserialiseSimplepatent crateName pool)
      (pe.map (receivedToken crateName pool)) := by
  cases pe with
  | End => exact (tag_saves (by decide)).last rfl
  | LoopStart index => exact (tag_saves (by decide)).bind (unsigned_saves index).map
  | LoopNext => exact (tag_saves (by decide)).last rfl
  | LoopEnd => exact (tag_saves (by decide)).last rfl
  | Jump jumpTarget => exact (tag_saves (by decide)).bind (count_saves jumpTarget).map
  | ExpectTok e => exact (tag_saves (by decide)).bind (token_saves hfrag hc e).map
  | ExpectPat type idx =>
    exact (tag_saves (by decide)).bind ((enum_saves type).bind (unsigned_saves idx).map)
  | If isEqual jumpTarget ents =>
    exact (tag_saves (by decide)).bind ((bool_saves isEqual).bind ((count_saves jumpTarget).bind
      (vec_saves fun e _ => check_saves hfrag hc e).map))

omit hfrag hc

theorem concatEnt_saves (hc : crateName ≠ []) (e : MacroExpansionConcatEnt Ident) :
    SavesOr stop strings refs (serialiseMacroExpansionConcatEnt e)
      (deserialiseMacroexpansionconcatent crateName pool)
        (e.map (receivedIdent crateName pool)) := by
  cases e with
  | Named v => exact (tag_saves (by decide)).bind (unsigned_saves v).map
  | Ident i =>
    exact (tag_saves (by decide)).bind ((hygiene_saves hc i.hygiene).bind
      (istring_saves i.name).map)

omit [MayCount stop] in
/-- A number above all others is put at the end. -/
theorem insertLoop_last {l : List (BitVec 32)} {v : BitVec 32} (h : ∀ w ∈ l, w < v) :
    insertLoop v l = l ++ [v] := by
  induction l with
  | nil => rfl
  | cons w ws ih =>
    have hw := BitVec.lt_def.mp (h w List.mem_cons_self)
    unfold insertLoop
    rw [if_neg (by rw [BitVec.lt_def]; omega), if_neg (by rintro rfl; omega),
      ih fun x hx => h x (List.mem_cons_of_mem w hx)]
    rfl

/-- A set is read in its order. -/
theorem insertLoops_eq (l : {l : List (BitVec 32) // l.Pairwise (· < ·)}) :
    insertLoops l.1 = l := by
  obtain ⟨l, hl⟩ := l
  have hfold : ∀ (ws vs : List (BitVec 32)) (h : vs.Pairwise (· < ·)), (vs ++ ws).Pairwise (· < ·) →
      (ws.foldl (fun s v => ⟨insertLoop v s.1, (insertLoop_pairwise s.2 v).1⟩)
        (⟨vs, h⟩ : {l : List (BitVec 32) // l.Pairwise (· < ·)})).1 = vs ++ ws := by
    intro ws
    induction ws with
    | nil => exact fun vs _ _ => (List.append_nil vs).symm
    | cons w ws ih =>
      intro vs h hall
      have hlast : insertLoop w vs = vs ++ [w] :=
        insertLoop_last fun v hv => (List.pairwise_append.mp hall).2.2 v hv w List.mem_cons_self
      rw [List.append_cons] at hall ⊢
      rw [← hlast] at hall ⊢
      exact ih _ _ hall
  exact Subtype.ext (hfold l [] .nil hl)

/-- The index and the kind of a named value, put together again. -/
theorem namedValue_eq (e : BitVec 32) :
    (((e >>> 24).setWidth 8 : BitVec 8).setWidth 32 <<< 24) ||| (e &&& 0x00FFFFFF#32) = e := by
  have hlt := e.isLt
  have hlow : (e &&& 0x00FFFFFF#32).toNat = e.toNat % 2 ^ 24 := by
    rw [BitVec.toNat_and, show (0x00FFFFFF#32).toNat = 2 ^ 24 - 1 from rfl,
      Nat.and_two_pow_sub_one_eq_mod]
  have hhigh : (((e >>> 24).setWidth 8 : BitVec 8).setWidth 32 <<< 24 : BitVec 32).toNat =
      e.toNat / 2 ^ 24 * 2 ^ 24 := by
    rw [BitVec.toNat_shiftLeft, BitVec.toNat_setWidth, BitVec.toNat_setWidth,
      BitVec.toNat_ushiftRight, Nat.shiftRight_eq_div_pow, Nat.shiftLeft_eq]
    omega
  apply BitVec.eq_of_toNat_eq
  rw [BitVec.toNat_or, hhigh, hlow, Nat.mul_comm,
    ← Nat.two_pow_add_eq_or_of_lt (Nat.mod_lt _ (by decide)), Nat.div_add_mod]

theorem contents_write_each (es : List (MacroExpansionEnt Token Ident)) :
    (serialiseContents es : Out ω Unit) = Write.each serialiseMacroExpansionEnt es := by
  induction es with
  | nil => simp only [serialiseContents, Write.each]
  | cons e es ih => simp only [serialiseContents, Write.each, ih]

theorem mapContents_eq {T T' I I' : Type} (f : T → T') (g : I → I')
    (es : List (MacroExpansionEnt T I)) : mapContents f g es = es.map (·.map f g) := by
  induction es with
  | nil => rw [mapContents, List.map_nil]
  | cons e es ih => rw [mapContents, List.map_cons, ih]

theorem depth_le_contents {T I : Type} {e : MacroExpansionEnt T I}
    {es : List (MacroExpansionEnt T I)}
    (h : e ∈ es) : e.depth ≤ contentsDepth es := by
  induction es with
  | nil => cases h
  | cons e' es ih =>
    rw [contentsDepth]
    rcases List.mem_cons.mp h with rfl | h
    · exact Nat.le_max_left ..
    · exact (ih h).trans (Nat.le_max_right ..)

/-- An entry is read, if there is depth for its loops: by induction on the depth. -/
theorem ent_saves (hfrag : ∀ msg, stop (.bug msg)) (hc : crateName ≠ []) {depth : Nat}
    {e : MacroExpansionEnt Token Ident} (hd : e.depth ≤ depth) :
    SavesOr stop strings refs (serialiseMacroExpansionEnt e)
      (deserialiseMacroexpansionent crateName pool depth)
      (e.map (receivedToken crateName pool) (receivedIdent crateName pool)) := by
  -- what a loop needs of the reader of its entries
  have hover (nested : In ρ (MacroExpansionEnt Token Ident)) (hnested : ∀ entries joiner loops,
      e = .Loop entries joiner loops → ∀ x ∈ entries, SavesOr stop strings refs
        (serialiseMacroExpansionEnt x) nested
        (x.map (receivedToken crateName pool) (receivedIdent crateName pool))) :
      SavesOr stop strings refs (serialiseMacroExpansionEnt e)
        (macroexpansionentOver crateName pool nested)
        (e.map (receivedToken crateName pool) (receivedIdent crateName pool)) := by
    cases e with
    | Token e =>
      rw [serialiseMacroExpansionEnt, MacroExpansionEnt.map]
      exact (tag_saves (by decide)).bind (token_saves hfrag hc e).map
    | NamedValue e =>
      rw [serialiseMacroExpansionEnt, MacroExpansionEnt.map]
      refine (tag_saves (by decide)).bind ((u8_saves _).bind ((unsigned_saves _).last ?_))
      rw [namedValue_eq]
    | Concat e =>
      rw [serialiseMacroExpansionEnt, MacroExpansionEnt.map]
      exact (tag_saves (by decide)).bind (vec_saves fun x _ => concatEnt_saves hc x).map
    | Loop entries joiner loops =>
      rw [serialiseMacroExpansionEnt, MacroExpansionEnt.map, contents_write_each, mapContents_eq]
      have hentries := hnested entries joiner loops rfl
      refine (tag_saves (by decide)).bind
        ((object_saves _ ((count_saves entries.length).bind (Carries.list hentries))).bind
          ((token_saves hfrag hc joiner).bind
            ((object_saves _ ((count_saves loops.1.length).bind
              (Carries.list fun v _ => unsigned_saves v))).last ?_)))
      rw [List.map_id', insertLoops_eq]
  cases depth with
  | zero =>
    refine hover _ fun entries joiner loops he => ?_
    rw [he, MacroExpansionEnt.depth] at hd
    omega
  | succ depth =>
    refine hover _ fun entries joiner loops he x hx => ?_
    rw [he, MacroExpansionEnt.depth] at hd
    have hle := depth_le_contents hx
    exact ent_saves hfrag hc (by omega)
termination_by depth

end Saves

/-- Any stop will do. -/
instance : MayCount fun _ => True := ⟨trivial⟩

section Arms

variable (crateName : RcString) (pool : Ident.ObjPool)

def receivedArm (arm : MacroRulesArm) : MacroRulesArm where
  paramNames := arm.paramNames
  pattern := arm.pattern.map (·.map (receivedToken crateName pool))
  contents := mapContents (receivedToken crateName pool) (receivedIdent crateName pool) arm.contents
  tokenCaptures := arm.tokenCaptures
  found := by
    -- the types of the tokens are what they were
    rw [findTokenCaptures_map]
    exact arm.found

variable {crateName pool} {strings : List RcString} {refs : ω → ρ → Prop}

theorem arm_saves (hc : crateName ≠ []) {depth : Nat} {arm : MacroRulesArm}
    (hd : contentsDepth arm.contents ≤ depth) :
    SavesOr (fun _ => True) strings refs (serialiseMacroRulesArm arm)
      (deserialiseMacrorulesarm crateName pool depth) (receivedArm crateName pool arm) := by
  refine (istrings_saves arm.paramNames).bind
    ((vec_saves fun pe _ => simplePatEnt_saves (fun _ => trivial) hc pe).bind
      ((vec_saves fun e he => ent_saves (fun _ => trivial) hc
        ((depth_le_contents he).trans hd)).last ?_))
  have hcaptures : findTokenCaptures Token.type
      (arm.contents.map (·.map (receivedToken crateName pool) (receivedIdent crateName pool))) =
      arm.tokenCaptures := by
    rw [← mapContents_eq]
    exact (receivedArm crateName pool arm).found.symm
  simp only [receivedArm, mapContents_eq, hcaptures]

end Arms

/-! ## 3. What matching and expansion see -/

/-- A context: its scopes behind those of the macro's own, if it starts with them. -/
structure ContextView where
  scopes : Option (List (BitVec 32 × BitVec 32))
  modPath : Option Ident.ModPath
  localInnerMacros : Option Ident.ModPath

structure IdentView where
  context : ContextView
  name : RcString
  isRaw : Bool

/-- Only strings have a context beside their data. -/
inductive DataView where
  | None
  | Ident (e : IdentView)
  | String (value : Str) (spelling : RcString) (context : ContextView)
  | Integer (datatype : eCoreType) (intval : U128) (spelling : RcString)
  | Float (datatype : eCoreType) (floatval : Float128) (spelling : RcString)
  | Fragment

structure TokenView where
  type : eTokenType
  data : DataView
  isDocComment : Bool
  spacing : TokenSpacing

structure ArmView where
  paramNames : List RcString
  pattern : List (SimplePatEnt TokenView)
  contents : List (MacroExpansionEnt TokenView IdentView)
  tokenCaptures : List Bool

section Views

-- the crate of the macro, and the context of its definition
variable (crateName : RcString) (base : Ident.Hygiene)

def contextView (h : Ident.Hygiene) : ContextView where
  scopes :=
    if Ident.chain base.inner <+: Ident.chain h.inner then
      some ((Ident.chain h.inner).drop (Ident.chain base.inner).length)
    else none
  modPath := h.modPath.map (inCrate crateName)
  localInnerMacros := h.inner.scope.localInnerMacros.map (·.value)

def identView (i : Ident) : IdentView := ⟨contextView crateName base i.hygiene, i.name, i.isRaw⟩

def dataView (hygiene : Ident.Hygiene) : TokenData → DataView
  | .None => .None
  | .Ident e => .Ident (identView crateName base e)
  | .String value spelling => .String value spelling (contextView crateName base hygiene)
  | .Integer datatype intval spelling => .Integer datatype intval spelling
  | .Float datatype floatval spelling => .Float datatype floatval spelling
  | .Fragment => .Fragment

def tokenView (tok : Token) : TokenView :=
  ⟨tok.type, dataView crateName base tok.hygiene tok.data, tok.isDocComment, tok.spacing⟩

def armView (arm : MacroRulesArm) : ArmView where
  paramNames := arm.paramNames
  pattern := arm.pattern.map (·.map (tokenView crateName base))
  contents := mapContents (tokenView crateName base) (identView crateName base) arm.contents
  tokenCaptures := arm.tokenCaptures

end Views

/-! ## 4. What is kept -/

section Kept

variable (base : Ident.Hygiene)

/-- The context of the macro's definition, with any module path. -/
def ContextKept (h : Ident.Hygiene) : Prop :=
  Ident.chain h.inner = Ident.chain base.inner ∧ h.inner.scope.localInnerMacros = none

def IdentKept (i : Ident) : Prop := ContextKept base i.hygiene ∧ i.isRaw = false

def DataKept (hygiene : Ident.Hygiene) : TokenData → Prop
  | .Ident e => IdentKept base e
  | .String _ _ => ContextKept base hygiene ∧ hygiene.modPath = none
  | _ => True

def TokenKept (tok : Token) : Prop :=
  DataKept base tok.hygiene tok.data ∧ tok.isDocComment = false

/-- The arms of which another crate misses nothing. -/
def Kept (arm : MacroRulesArm) : Prop :=
  (∀ pe ∈ arm.pattern, ∀ tok ∈ pe.tokens, TokenKept base tok) ∧
    (∀ tok ∈ contentsTokens arm.contents, TokenKept base tok) ∧
    ∀ i ∈ contentsIdents arm.contents, IdentKept base i

variable {base} {crateName : RcString} {pool : Ident.ObjPool}

theorem inCrate_inCrate (p : Ident.ModPath) :
    inCrate crateName (inCrate crateName p) = inCrate crateName p := by
  by_cases hp : p.crate = []
  · have hn : inCrate crateName p = { p with crate := crateName } := if_pos hp
    rw [hn]
    unfold inCrate
    split_ifs <;> rfl
  · have hn : inCrate crateName p = p := if_neg hp
    rw [hn, hn]

theorem received_chain (h : Ident.Hygiene) :
    Ident.chain (receivedHygiene crateName pool h).inner = [] := by
  unfold receivedHygiene
  cases h.modPath with
  | none => rfl
  | some p => exact Ident.chain_paths rfl

/-- What is seen of a context that was read: the module path. -/
theorem received_view (h mac : Ident.Hygiene) :
    contextView crateName (receivedHygiene crateName pool mac) (receivedHygiene crateName pool h) =
      ⟨some [], h.modPath.map (inCrate crateName), none⟩ := by
  unfold contextView
  rw [received_chain, received_chain, if_pos (List.prefix_refl _)]
  unfold receivedHygiene
  cases h.modPath with
  | none => rfl
  | some p =>
    exact congrArg (fun p => ContextView.mk (some []) (some p) none) (inCrate_inCrate p)

theorem scopes_nil_iff {base cs : List (BitVec 32 × BitVec 32)} :
    some [] = (if base <+: cs then some (cs.drop base.length) else none) ↔ cs = base := by
  constructor
  · intro h
    split_ifs at h with hp
    obtain ⟨ds, rfl⟩ := hp
    rw [List.drop_left, Option.some.injEq] at h
    rw [← h, List.append_nil]
  · rintro rfl
    rw [if_pos (List.prefix_refl _), List.drop_length]

theorem view_eq_iff (modPath : Option Ident.ModPath) (h : Ident.Hygiene) :
    ⟨some [], modPath, none⟩ = contextView crateName base h ↔
      ContextKept base h ∧ modPath = h.modPath.map (inCrate crateName) := by
  have hlocal : none = h.inner.scope.localInnerMacros.map (·.value) ↔
      h.inner.scope.localInnerMacros = none := by
    rw [eq_comm, Option.map_eq_none_iff]
  rw [contextView, ContextView.mk.injEq, scopes_nil_iff, hlocal]
  exact ⟨fun ⟨hs, hm, hl⟩ => ⟨⟨hs, hl⟩, hm⟩, fun ⟨⟨hs, hl⟩, hm⟩ => ⟨hs, hm, hl⟩⟩

theorem context_kept_iff (h : Ident.Hygiene) :
    contextView crateName (receivedHygiene crateName pool base) (receivedHygiene crateName pool h) =
      contextView crateName base h ↔ ContextKept base h := by
  rw [received_view, view_eq_iff, and_iff_left rfl]

theorem ident_kept_iff (i : Ident) :
    identView crateName (receivedHygiene crateName pool base) (receivedIdent crateName pool i) =
      identView crateName base i ↔ IdentKept base i := by
  simp only [identView, receivedIdent, IdentView.mk.injEq, context_kept_iff, true_and, IdentKept,
    eq_comm (a := false)]

/-- A string is read without its context. -/
theorem noContext_kept_iff (h : Ident.Hygiene) :
    contextView crateName (receivedHygiene crateName pool base) {} = contextView crateName base h ↔
      ContextKept base h ∧ h.modPath = none := by
  have hview : contextView crateName (receivedHygiene crateName pool base) {} =
    ⟨some [], none, none⟩ :=
    received_view {} base
  rw [hview, view_eq_iff, eq_comm (a := none), Option.map_eq_none_iff]

theorem data_kept_iff (h : Ident.Hygiene) (data : TokenData) :
    dataView crateName (receivedHygiene crateName pool base) {} (receivedData crateName pool data) =
      dataView crateName base h data ↔ DataKept base h data := by
  cases data with
  | Ident e => simp only [receivedData, dataView, DataView.Ident.injEq, ident_kept_iff, DataKept]
  | String value spelling =>
    simp only [receivedData, dataView, DataView.String.injEq, noContext_kept_iff,
      true_and, DataKept]
  | _ => exact iff_of_true rfl trivial

theorem token_kept_iff (tok : Token) :
    tokenView crateName (receivedHygiene crateName pool base) (receivedToken crateName pool tok) =
      tokenView crateName base tok ↔ TokenKept base tok := by
  simp only [tokenView, receivedToken, TokenView.mk.injEq, data_kept_iff, true_and, and_true,
    TokenKept, eq_comm (a := false)]

theorem received_kept_iff (arm : MacroRulesArm) :
    armView crateName (receivedHygiene crateName pool base) (receivedArm crateName pool arm) =
      armView crateName base arm ↔ Kept base arm := by
  have hpattern : (arm.pattern.map (·.map (receivedToken crateName pool))).map
        (·.map (tokenView crateName (receivedHygiene crateName pool base))) =
      arm.pattern.map (·.map (tokenView crateName base)) ↔
        ∀ pe ∈ arm.pattern, ∀ tok ∈ pe.tokens, TokenKept base tok := by
    simp only [List.map_map, List.map_inj_left, Function.comp_def, SimplePatEnt.map_map,
      SimplePatEnt.map_eq_iff, token_kept_iff]
  simp only [armView, receivedArm, ArmView.mk.injEq, hpattern, mapContents_map, mapContents_eq_iff,
    token_kept_iff, ident_kept_iff, true_and, and_true, Kept]

end Kept

/-! ## 5. Exported arms -/

/-- An exported arm is read as an arm from which another crate sees what its own does, if and only
    if nothing of it is among what the writer leaves out. `base` is the context of the macro, which
    is written beside its arms. -/
theorem arm_kept_iff {crateName : RcString} (hc : crateName ≠ []) (pool : Ident.ObjPool)
    (base : Ident.Hygiene) (arm : MacroRulesArm) {depth : Nat}
    (hd : contentsDepth arm.contents ≤ depth) {s s' : Writer ω} {bs : List Byte}
    (hw : serialiseMacroRulesArm arm s = .ok ((), bs, s')) {t : Reader ρ}
    (ht : s'.istrings <+: t.strings) (rest : List Byte) :
    ∃ arm' t', deserialiseMacrorulesarm crateName pool depth (bs ++ rest) t = .ok (arm', rest, t') ∧
      (armView crateName (receivedHygiene crateName pool base) arm' = armView crateName base arm ↔
        Kept base arm) := by
  have hsaves : SavesOr (fun _ => True) t.strings (fun (_ : ω) (_ : ρ) => True)
      (serialiseMacroRulesArm arm) (deserialiseMacrorulesarm crateName pool depth)
      (receivedArm crateName pool arm) := arm_saves hc hd
  obtain ⟨t', hr, -⟩ := hsaves.reads hw ht rest ⟨rfl, trivial⟩
  exact ⟨_, t', hr, received_kept_iff arm⟩

/-- `() => { match }`, with or without `r#`. -/
def identArm (isRaw : Bool) : MacroRulesArm where
  paramNames := []
  pattern := [.End]
  contents := [.Token {
    type := .TOK_IDENT
    data := .Ident { hygiene := (Ident.Hygiene.newScope 0 0).1, name := "match".toList, isRaw :=
      isRaw } }]
  tokenCaptures := []
  found := rfl

theorem arm_kept_keyword :
    ∃ bs s', serialiseMacroRulesArm (identArm false) ⟨[], ()⟩ = .ok ((), bs, s') ∧
      ∃ arm' t', deserialiseMacrorulesarm "base".toList 7 0 (bs ++ [1#8]) ⟨s'.istrings, ()⟩ =
        .ok (arm', [1#8], t') ∧
        (armView "base".toList (receivedHygiene "base".toList 7 (Ident.Hygiene.newScope 0 0).1)
          arm' =
          armView "base".toList (Ident.Hygiene.newScope 0 0).1 (identArm false) ↔
        Kept (Ident.Hygiene.newScope 0 0).1 (identArm false)) := by
  obtain ⟨bs, s', hw⟩ : ∃ bs s', serialiseMacroRulesArm (identArm false) ⟨[], ()⟩ =
    .ok ((), bs, s') :=
    ⟨_, _, rfl⟩
  exact ⟨bs, s', hw, arm_kept_iff (by decide) 7 _ _ (Nat.le_refl 0) hw (List.prefix_refl _) _⟩

/-- `r#match` is read as `match`. -/
theorem raw_arm_lost :
    ∃ bs s' arm' t', serialiseMacroRulesArm (identArm true) ⟨[], ()⟩ = .ok ((), bs, s') ∧
      deserialiseMacrorulesarm "base".toList 7 0 bs ⟨s'.istrings, ()⟩ = .ok (arm', [], t') ∧
      armView "base".toList (receivedHygiene "base".toList 7 (Ident.Hygiene.newScope 0 0).1) arm' ≠
        armView "base".toList (Ident.Hygiene.newScope 0 0).1 (identArm true) := by
  refine ⟨_, _, _, _, rfl, rfl, fun h => ?_⟩
  have hcontents := congrArg ArmView.contents h
  cases hcontents

end Trustme.Metadata
