/-
  Subject:   The bodies of functions come back from crate metadata, but for one flag of inline
             assembly.

  * `RoundTrips`: the assumption that types and paths come back;
  * `Whole`: what a body must be to be written: no null path but for an absent operand;
  * `saved`: a body as it comes back;
  * `.._saves`: one lemma for every pair of functions.
-/
import Trustme.Metadata.MirCodec

namespace Trustme.Metadata

open Trustme.Lib Trustme.Numeric

variable {V : Vocabulary} {ω ρ α : Type}

/-! ## 1. What is assumed, and what is written -/

/-- Types and paths come back. -/
structure RoundTrips (strings : List RcString) (refs : ω → ρ → Prop) (W : RefWriter V ω)
    (R : RefReader V ρ) : Prop where
  type : ∀ t, Saves strings refs (W.serialiseType t) R.deserialiseType t
  path : ∀ p, Saves strings refs (W.serialisePath p) R.deserialisePath p
  genericpath : ∀ p, Saves strings refs (W.serialiseGenericpath p) R.deserialiseGenericpath p
  pathparams : ∀ p, Saves strings refs (W.serialisePathparams p) R.deserialisePathparams p
  traitpath : ∀ p, Saves strings refs (W.serialiseTraitpath p) R.deserialiseTraitpath p
  constgeneric : ∀ v, Saves strings refs (W.serialiseConstgeneric v) R.deserialiseConstgeneric v

/-- A generic of source code, not of the solver: a group and an index, or `Self`. -/
def HIRGenericRef.Whole (ge : HIRGenericRef) : Prop :=
  ge.solverScope = 0 ∧ ge.binding.toNat < 2 ^ 16

/-- A path where one is needed, and no constant that should have been evaluated. -/
def MIRConstant.Whole (W : RefWriter V ω) : MIRConstant V → Prop
  | .Const p => (W.unevaluatedBodyDepth > 0 || V.monomorphisePathNeeded p) = true
  | .Generic v => v.Whole
  | .ItemAddr p _ => p.isSome = true
  | _ => True

def MIRParam.Whole (W : RefWriter V ω) : MIRParam V → Prop
  | .Constant v => v.Whole W
  | _ => True

/-- The one place for a null path is the metadata of a `MakeDst`. -/
def MIRRValue.Whole (W : RefWriter V ω) : MIRRValue V → Prop
  | .Constant v => v.Whole W
  | .SizedArray val _ => val.Whole W
  | .BinOp valL _ valR => valL.Whole W ∧ valR.Whole W
  | .MakeDst ptrVal metaVal =>
    ptrVal.Whole W ∧ (metaVal = .Constant (.ItemAddr none ⟨0, 0⟩) ∨ metaVal.Whole W)
  | .Tuple vals | .Array vals | .EnumVariant _ _ vals | .Struct _ vals => ∀ v ∈ vals, v.Whole W
  | .UnionVariant _ _ val => val.Whole W
  | _ => True

def MIRAsmParam.Whole (W : RefWriter V ω) : MIRAsmParam V → Prop
  | .Const v => v.Whole W
  | .Reg _ _ input _ => ∀ v ∈ input, v.Whole W
  | _ => True

def MIRStatement.Whole (W : RefWriter V ω) : MIRStatement V → Prop
  | .Assign _ src => src.Whole W
  | .Asm2 _ _ params => ∀ p ∈ params, p.Whole W
  | _ => True

def MIRTerminator.Whole (W : RefWriter V ω) : MIRTerminator V → Prop
  | .Call _ _ _ _ args _ _ => ∀ v ∈ args, v.Whole W
  | .TailCall _ args _ _ => ∀ v ∈ args, v.Whole W
  | .Asm2 _ _ params _ => ∀ p ∈ params, p.Whole W
  | _ => True

def MIRBasicBlock.Whole (W : RefWriter V ω) (block : MIRBasicBlock V) : Prop :=
  (∀ stmt ∈ block.statements, stmt.Whole W) ∧ block.terminator.Whole W

/-- A body that the compiler can save. -/
def MIRFunction.Whole (W : RefWriter V ω) (mir : MIRFunction V) : Prop :=
  ∀ block ∈ mir.blocks, block.Whole W

def AsmOptions.saved (o : AsmOptions) : AsmOptions := { o with naked := false }

def MIRStatement.saved : MIRStatement V → MIRStatement V
  | .Asm2 options lines params => .Asm2 options.saved lines params
  | stmt => stmt

def MIRTerminator.saved : MIRTerminator V → MIRTerminator V
  | .Asm2 options lines params retBlock => .Asm2 options.saved lines params retBlock
  | term => term

def MIRBasicBlock.saved (block : MIRBasicBlock V) : MIRBasicBlock V :=
  ⟨block.statements.map MIRStatement.saved, block.terminator.saved, block.isCleanup⟩

def MIRFunction.saved (mir : MIRFunction V) : MIRFunction V :=
  ⟨mir.locals, mir.dropFlags, mir.blocks.map MIRBasicBlock.saved⟩

/-! ## 2. Enumerations and optional parts -/

section Parts

variable {stop : WriteStop → Prop} {strings : List RcString} {refs : ω → ρ → Prop}

theorem enum_saves [CEnum α] (x : α) : SavesOr stop strings refs (writeEnum x) readEnum x := by
  refine (tag_saves (CEnum.number_lt x)).last ?_
  rw [CEnum.named_number]

variable {w : α → Out ω Unit}

theorem optional_saves {γ : Type} {r : In ρ γ} {f : α → γ} (x : Option α)
    (h : ∀ v ∈ x, SavesOr stop strings refs (w v) r (f v)) :
    SavesOr stop strings refs (writeOptional w x) (readOptional r) (x.map f) := by
  cases x with
  | none => exact (bool_saves false).bind (Carries.pure none)
  | some v => exact (bool_saves true).bind (h v rfl).map

theorem optional_saves_self {r : In ρ α} (x : Option α)
    (h : ∀ v ∈ x, SavesOr stop strings refs (w v) r v) :
    SavesOr stop strings refs (writeOptional w x) (readOptional r) x := by
  have hopt := optional_saves (f := id) x h
  rwa [Option.map_id] at hopt

/-- Vectors whose elements come back as they are. -/
theorem vec_saves_self {t : String} {r : In ρ α} {l : List α}
    (h : ∀ c ∈ l, Saves strings refs (w c) r c) :
    Saves strings refs (serialiseVec t w l) (deserialiseVec t r) l := by
  have hvec := vec_saves (t := t) (f := id) h
  rwa [List.map_id] at hvec

end Parts

/-! ## 3. Places and values -/

section Values

variable {strings : List RcString} {refs : ω → ρ → Prop} {W : RefWriter V ω} {R : RefReader V ρ}

open RefWriter RefReader

theorem genericref_saves {ge : HIRGenericRef} (h : ge.Whole) :
    Saves strings refs (serialiseGenericref ge : Out ω Unit) deserialiseGenericref ge := by
  have hcheck : (!ge.isSolverExistential) = true := by
    simp [HIRGenericRef.isSolverExistential, h.1]
  have hge : (⟨ge.name, (ge.binding.setWidth 16).setWidth 32, 0⟩ : HIRGenericRef) = ge := by
    obtain ⟨name, binding, scope⟩ := ge
    obtain ⟨hscope, hlt⟩ := h
    have hb : (binding.setWidth 16).setWidth 32 = binding := by
      refine BitVec.eq_of_toNat_eq ?_
      rw [BitVec.toNat_setWidth, BitVec.toNat_setWidth, Nat.mod_eq_of_lt hlt]
      exact Nat.mod_eq_of_lt binding.isLt
    rw [hb]
    exact congrArg (HIRGenericRef.mk name binding) hscope.symm
  refine (Carries.check hcheck).after ((istring_saves ge.name).bind ?_)
  exact (u16_saves (ge.binding.setWidth 16)).last (congrArg pure hge)

variable (h : RoundTrips strings refs W R)

include h

theorem arraysize_saves (size : HIRArraySize V) :
    Saves strings refs (W.serialiseArraysize size) R.deserialiseArraysize size := by
  cases size with
  | Unevaluated v => exact (tag_saves (by decide)).bind (h.constgeneric v).map
  | Known v => exact (tag_saves (by decide)).bind (u64_saves v).map

theorem reloc_saves (r : Reloc V) :
    Saves strings refs (W.serialiseReloc r) R.deserialiseReloc r := by
  cases r with
  | named ofs len p preserve =>
    exact (count_saves ofs).bind ((count_saves len).bind ((bool_saves preserve).bind
      ((tag_saves (by decide)).bind (h.path p).map)))
  | bytes ofs len bytes =>
    exact (count_saves ofs).bind ((count_saves len).bind ((bool_saves false).bind
      ((tag_saves (by decide)).bind (string_saves bytes).map)))

theorem encoded_saves (lit : EncodedLiteral V) :
    Saves strings refs (W.serialiseEncoded lit) R.deserialiseEncodedliteral lit := by
  have hrelocs := Carries.list (f := id) (l := lit.relocations) fun r _ => reloc_saves h r
  rw [List.map_id] at hrelocs
  exact (vec_saves_self fun v _ => u8_saves v).bind
    ((count_saves lit.relocations.length).bind hrelocs.map)

theorem root_saves (root : Storage V) :
    Saves strings refs (W.serialiseRoot root) R.deserialiseRoot root := by
  have hinner : ∀ v, root.getInner = some v → Saves strings refs (writeCount v : Out ω Unit)
      R.deserialiseRoot root := by
    intro v hv
    obtain ⟨hfrom, _, hne⟩ := Storage.fromInner_getInner hv
    refine (count_saves v).last ?_
    rw [if_neg hne, hfrom]
  cases root with
  | Return => exact hinner _ rfl
  | Argument idx hidx => exact hinner _ rfl
  | Local idx hidx => exact hinner _ rfl
  | Static p => exact (count_saves 3).bind (h.path p).map

theorem lvalue_saves (lv : MIRLValue V) :
    Saves strings refs (W.serialiseLvalue lv) R.deserialiseMirLvalue lv := by
  have hwrapper : ∀ w : Wrapper,
      Saves strings refs (serialiseWrapper w : Out ω Unit) deserialiseMirLvalueWrapper w := fun w =>
    (unsigned_saves w.val).map
  exact (root_saves h lv.root).bind (vec_saves_self fun w _ => hwrapper w).map

theorem constant_saves {v : MIRConstant V} (hv : v.Whole W) :
    Saves strings refs (W.serialiseConstant v) R.deserialiseMirConstant v := by
  cases v with
  | Int v t => exact (tag_saves (by decide)).bind ((i128_saves v).bind (enum_saves t).map)
  | Uint v t => exact (tag_saves (by decide)).bind ((u128_saves v).bind (enum_saves t).map)
  | Float v t => exact (tag_saves (by decide)).bind ((float_saves v).bind (enum_saves t).map)
  | Bool v => exact (tag_saves (by decide)).bind (bool_saves v).map
  | Bytes v =>
    exact (tag_saves (by decide)).bind ((count_saves v.length).bind Carries.take.map)
  | StaticString v => exact (tag_saves (by decide)).bind (string_saves v).map
  | Const p =>
    exact (tag_saves (by decide)).bind ((Carries.check hv).after (h.path p).map)
  | Generic v => exact (tag_saves (by decide)).bind (genericref_saves hv).map
  | Function p => exact (tag_saves (by decide)).bind (h.path p).map
  | ItemAddr p offset =>
    cases p with
    | none => cases hv
    | some p => exact (tag_saves (by decide)).bind ((h.path p).bind (u128_saves offset).map)
  | Encoded type value =>
    exact (tag_saves (by decide)).bind ((h.type type).bind (encoded_saves h value).map)

theorem param_saves {v : MIRParam V} (hv : v.Whole W) :
    Saves strings refs (W.serialiseParam v) R.deserialiseMirParam v := by
  cases v with
  | LValue v => exact (tag_saves (by decide)).bind (lvalue_saves h v).map
  | Borrow type val =>
    exact (tag_saves (by decide)).bind ((enum_saves type).bind (lvalue_saves h val).map)
  | Constant v => exact (tag_saves (by decide)).bind (constant_saves h hv).map

theorem params_saves {vals : List (MIRParam V)}
    (hv : ∀ v ∈ vals, v.Whole W) :
    Saves strings refs (W.serialiseParams vals) R.deserialiseMirParams vals :=
  vec_saves_self fun v hmem => param_saves h (hv v hmem)

/-- The absent operand comes back as one. -/
theorem metaVal_saves {v : MIRParam V}
    (hv : v = .Constant (.ItemAddr none ⟨0, 0⟩) ∨ v.Whole W) :
    Saves strings refs (do
      writeBool (!isAbsent v)
      if !isAbsent v then W.serialiseParam v else pure ()) R.deserialiseMetaVal v := by
  rcases hv with rfl | hv
  · exact (bool_saves false).bind (Carries.pure _)
  · have habsent : isAbsent v = false := by
      unfold isAbsent
      split
      · cases hv
      · rfl
    rw [habsent]
    exact (bool_saves true).bind (param_saves h hv)

theorem rvalue_saves {v : MIRRValue V} (hv : v.Whole W) :
    Saves strings refs (W.serialiseRvalue v) R.deserialiseMirRvalue v := by
  cases v with
  | Use v => exact (tag_saves (by decide)).bind (lvalue_saves h v).map
  | Borrow type isRaw val =>
    exact (tag_saves (by decide)).bind ((enum_saves type).bind ((bool_saves isRaw).bind
      (lvalue_saves h val).map))
  | Constant v => exact (tag_saves (by decide)).bind (constant_saves h hv).map
  | SizedArray val count =>
    exact (tag_saves (by decide)).bind ((param_saves h hv).bind (arraysize_saves h count).map)
  | Cast val type =>
    exact (tag_saves (by decide)).bind ((lvalue_saves h val).bind (h.type type).map)
  | BinOp valL op valR =>
    exact (tag_saves (by decide)).bind ((param_saves h hv.1).bind ((enum_saves op).bind
      (param_saves h hv.2).map))
  | UniOp val op =>
    exact (tag_saves (by decide)).bind ((lvalue_saves h val).bind (enum_saves op).map)
  | DstMeta val => exact (tag_saves (by decide)).bind (lvalue_saves h val).map
  | DstPtr val => exact (tag_saves (by decide)).bind (lvalue_saves h val).map
  | MakeDst ptrVal metaVal =>
    exact (tag_saves (by decide)).bind ((param_saves h hv.1).bind (metaVal_saves h hv.2).map)
  | Tuple vals => exact (tag_saves (by decide)).bind (params_saves h hv).map
  | Array vals => exact (tag_saves (by decide)).bind (params_saves h hv).map
  | UnionVariant path index val =>
    exact (tag_saves (by decide)).bind ((h.genericpath path).bind ((unsigned_saves index).bind
      (param_saves h hv).map))
  | EnumVariant path index vals =>
    exact (tag_saves (by decide)).bind ((h.genericpath path).bind ((unsigned_saves index).bind
      (params_saves h hv).map))
  | Struct path vals =>
    exact (tag_saves (by decide)).bind ((h.genericpath path).bind (params_saves h hv).map)

end Values

/-! ## 4. Inline assembly -/

section Asm

variable {strings : List RcString} {refs : ω → ρ → Prop} {W : RefWriter V ω} {R : RefReader V ρ}

open RefWriter RefReader

theorem flagBit_getLsbD {w i j : Nat} (hj : j < w) (fld : Bool) :
    (flagBit i fld : BitVec w).getLsbD j = (fld && decide (i = j)) := by
  unfold flagBit
  cases fld with
  | false => simp
  | true =>
    rw [if_pos rfl, BitVec.getLsbD_shiftLeft, BitVec.getLsbD_one, Bool.true_and, decide_eq_true hj,
      Bool.true_and, decide_eq_true (Nat.zero_lt_of_lt hj), Bool.true_and]
    rcases Nat.lt_trichotomy j i with h | h | h
    · simp [h, Nat.ne_of_gt h]
    · simp [h]
    · have : j - i ≠ 0 := by omega
      simp [this, Nat.ne_of_lt h]

theorem asmOptions_saves (o : AsmOptions) :
    Saves strings refs (serialiseAsmOptions o : Out ω Unit) deserialiseAsmOptions o.saved := by
  have hflags : ∀ {j}, j < 16 → (asmFlags o).getLsbD j = (o.pure && decide (0 = j) ||
      o.nomem && decide (1 = j) || o.readonly && decide (2 = j) ||
      o.preservesFlags && decide (3 = j) || o.noreturn && decide (4 = j) ||
      o.nostack && decide (5 = j) || o.attSyntax && decide (6 = j) || o.raw && decide (7 = j)) := by
    intro j hj
    simp only [asmFlags, BitVec.getLsbD_or, flagBit_getLsbD hj]
  refine (u16_saves (asmFlags o)).last (congrArg pure ?_)
  rw [hflags (by decide), hflags (by decide), hflags (by decide), hflags (by decide),
    hflags (by decide), hflags (by decide), hflags (by decide), hflags (by decide)]
  simp [AsmOptions.saved]

theorem asmLineFrag_saves (l : AsmLineFragment) :
    Saves strings refs (serialiseAsmLineFrag l : Out ω Unit) deserialiseAsmLineFrag l := by
  refine (string_saves l.before).bind ((unsigned_saves l.index).bind ?_)
  refine (i64_saves (l.modifier.signExtend 64)).last (congrArg pure ?_)
  have hchar : (l.modifier.signExtend 64).setWidth 8 = l.modifier := by
    refine BitVec.eq_of_getLsbD_eq fun i hi => ?_
    rw [BitVec.getLsbD_setWidth, BitVec.getLsbD_signExtend, decide_eq_true hi, if_pos hi,
      decide_eq_true (Nat.lt_trans hi (by decide : 8 < 64)), Bool.true_and, Bool.true_and]
  rw [hchar]

theorem asmLines_saves (lines : List AsmLine) :
    Saves strings refs (serialiseAsmLines lines : Out ω Unit) deserialiseAsmLines lines :=
  vec_saves_self fun l _ =>
    (vec_saves_self fun f _ => asmLineFrag_saves f).bind (string_saves l.trailing).map

theorem asmSpec_saves (spec : AsmRegisterSpec) :
    Saves strings refs (serialiseAsmSpec spec : Out ω Unit) deserialiseAsmSpec spec := by
  cases spec with
  | Class c => exact (tag_saves (by decide)).bind (enum_saves c).map
  | Explicit name => exact (tag_saves (by decide)).bind (string_saves name).map

theorem asmParam_saves (h : RoundTrips strings refs W R) {p : MIRAsmParam V} (hp : p.Whole W) :
    Saves strings refs (W.serialiseAsmParam p) R.deserialiseAsmParam p := by
  cases p with
  | Const v => exact (tag_saves (by decide)).bind (constant_saves h hp).map
  | Sym p => exact (tag_saves (by decide)).bind (h.path p).map
  | Reg dir spec input output =>
    exact (tag_saves (by decide)).bind ((enum_saves dir).bind ((asmSpec_saves spec).bind
      ((optional_saves_self input fun v hv => param_saves h (hp v hv)).bind
        (optional_saves_self output fun v _ => lvalue_saves h v).map)))
  | Label target => exact (tag_saves (by decide)).bind (unsigned_saves target).map

theorem asmParams_saves (h : RoundTrips strings refs W R) {params : List (MIRAsmParam V)}
    (hp : ∀ p ∈ params, p.Whole W) :
    Saves strings refs (W.serialiseAsmParams params) R.deserialiseAsmParams params :=
  vec_saves_self fun p hmem => asmParam_saves h (hp p hmem)

end Asm

/-! ## 5. Statements, terminators, functions -/

section Functions

variable {strings : List RcString} {refs : ω → ρ → Prop} {W : RefWriter V ω} {R : RefReader V ρ}

open RefWriter RefReader

variable (h : RoundTrips strings refs W R)

include h

theorem named_saves (e : Str × MIRLValue V) :
    Saves strings refs (W.serialiseNamed e) R.deserialiseNamed e :=
  (string_saves e.1).bind (lvalue_saves h e.2).map

omit h in
theorem strings_saves (l : List Str) :
    Saves strings refs (serialiseVec "std::string" writeString l : Out ω Unit)
      (deserialiseVec "std::string" readString) l :=
  vec_saves_self fun v _ => string_saves v

theorem statement_saves {stmt : MIRStatement V}
    (hs : stmt.Whole W) :
    Saves strings refs (W.serialiseStatement stmt) R.deserialiseMirStatement (some stmt.saved) := by
  refine object_saves _ ?_
  cases stmt with
  | Assign dst src =>
    exact (tag_saves (by decide)).bind ((lvalue_saves h dst).bind (rvalue_saves h hs).map)
  | Asm tpl outputs inputs clobbers flags =>
    exact (tag_saves (by decide)).bind ((string_saves tpl).bind
      ((vec_saves_self fun e _ => named_saves h e).bind
        ((vec_saves_self fun e _ => named_saves h e).bind
          ((strings_saves clobbers).bind (strings_saves flags).map))))
  | Asm2 options lines params =>
    exact (tag_saves (by decide)).bind ((asmOptions_saves options).bind
      ((asmLines_saves lines).bind (asmParams_saves h hs).map))
  | SetDropFlag idx newVal other =>
    exact (tag_saves (by decide)).bind ((unsigned_saves idx).bind ((bool_saves newVal).bind
      (unsigned_saves other).map))
  | SaveDropFlag slot bitIndex idx =>
    exact (tag_saves (by decide)).bind ((lvalue_saves h slot).bind ((unsigned_saves bitIndex).bind
      (unsigned_saves idx).map))
  | LoadDropFlag idx slot bitIndex =>
    exact (tag_saves (by decide)).bind ((unsigned_saves idx).bind ((lvalue_saves h slot).bind
      (unsigned_saves bitIndex).map))

omit h in
theorem unwind_saves (action : MIRUnwindAction) :
    Saves strings refs (serialiseUnwind action : Out ω Unit) deserialiseMirUnwindAction action := by
  cases action with
  | Continue => exact (tag_saves (by decide)).last rfl
  | Cleanup target => exact (tag_saves (by decide)).bind (unsigned_saves target).map
  | Terminate => exact (tag_saves (by decide)).last rfl
  | Unreachable => exact (tag_saves (by decide)).last rfl

omit h in
theorem switchvalues_saves (values : MIRSwitchValues) :
    Saves strings refs (serialiseSwitchvalues values : Out ω Unit) deserialiseMirSwitchvalues
      values := by
  cases values with
  | Unsigned v => exact (tag_saves (by decide)).bind (vec_saves_self fun x _ => u64_saves x).map
  | Signed v => exact (tag_saves (by decide)).bind (vec_saves_self fun x _ => i64_saves x).map
  | String v => exact (tag_saves (by decide)).bind (strings_saves v).map

theorem calltarget_saves (fcn : MIRCallTarget V) :
    Saves strings refs (W.serialiseCalltarget fcn) R.deserialiseMirCalltarget fcn := by
  cases fcn with
  | Value v => exact (tag_saves (by decide)).bind (lvalue_saves h v).map
  | Path p => exact (tag_saves (by decide)).bind (h.path p).map
  | Intrinsic name params =>
    exact (tag_saves (by decide)).bind ((istring_saves name).bind (h.pathparams params).map)

theorem tailCallTarget_saves (fcn : MIRTailCallTarget V) :
    Saves strings refs (W.serialiseTailCallTarget fcn) R.deserialiseMirTailCallTarget fcn := by
  cases fcn with
  | Value v => exact (tag_saves (by decide)).bind (lvalue_saves h v).map
  | Path p => exact (tag_saves (by decide)).bind (h.path p).map

omit h in
theorem targets_saves (targets : List (BitVec 32)) :
    Saves strings refs (serialiseTargets targets : Out ω Unit) deserialiseTargets targets :=
  vec_saves_self fun t _ => unsigned_saves t

omit h in
theorem source_saves (source : SourceLocation) :
    Saves strings refs (serialiseSource source : Out ω Unit) deserialiseSource source :=
  (istring_saves source.filename).bind ((unsigned_saves source.line).bind
    (unsigned_saves source.column).map)

theorem terminator_saves {term : MIRTerminator V}
    (ht : term.Whole W) :
    Saves strings refs (W.serialiseTerminator term) R.deserialiseMirTerminator term.saved := by
  cases term with
  | Incomplete => exact (tag_saves (by decide)).last rfl
  | Return => exact (tag_saves (by decide)).last rfl
  | UnwindResume => exact (tag_saves (by decide)).last rfl
  | UnwindTerminate => exact (tag_saves (by decide)).last rfl
  | Unreachable => exact (tag_saves (by decide)).last rfl
  | Goto target => exact (tag_saves (by decide)).bind (unsigned_saves target).map
  | If cond bbTrue bbFalse =>
    exact (tag_saves (by decide)).bind ((lvalue_saves h cond).bind ((unsigned_saves bbTrue).bind
      (unsigned_saves bbFalse).map))
  | Switch val targets validFlag invalidTarget =>
    exact (tag_saves (by decide)).bind ((lvalue_saves h val).bind ((targets_saves targets).bind
      ((unsigned_saves validFlag).bind (unsigned_saves invalidTarget).map)))
  | SwitchValue val defTarget targets values =>
    exact (tag_saves (by decide)).bind ((lvalue_saves h val).bind ((unsigned_saves defTarget).bind
      ((targets_saves targets).bind (switchvalues_saves values).map)))
  | Drop kind slot flagIdx target unwind =>
    exact (tag_saves (by decide)).bind ((enum_saves kind).bind ((lvalue_saves h slot).bind
      ((unsigned_saves flagIdx).bind ((unsigned_saves target).bind (unwind_saves unwind).map))))
  | Call retBlock unwind retVal fcn args source tracksCaller =>
    exact (tag_saves (by decide)).bind ((unsigned_saves retBlock).bind ((unwind_saves unwind).bind
      ((lvalue_saves h retVal).bind ((calltarget_saves h fcn).bind ((params_saves h ht).bind
        ((source_saves source).bind (bool_saves tracksCaller).map))))))
  | TailCall fcn args source tracksCaller =>
    exact (tag_saves (by decide)).bind ((tailCallTarget_saves h fcn).bind ((params_saves h ht).bind
      ((source_saves source).bind (bool_saves tracksCaller).map)))
  | Asm2 options lines params retBlock =>
    exact (tag_saves (by decide)).bind ((asmOptions_saves options).bind
      ((asmLines_saves lines).bind ((asmParams_saves h ht).bind (unsigned_saves retBlock).map)))

theorem basicblock_saves {block : MIRBasicBlock V}
    (hb : block.Whole W) :
    Saves strings refs (W.serialiseBasicblock block) R.deserialiseMirBasicblock block.saved := by
  have hstmts : Saves strings refs
      (serialiseVec "MIRStatement" W.serialiseStatement block.statements)
      R.deserialiseMirStatements (block.statements.map MIRStatement.saved) := by
    refine (vec_saves fun stmt hmem => statement_saves h (hb.1 stmt hmem)).last ?_
    rw [List.filterMap_map]
    exact congrArg pure (List.filterMap_eq_map (f := MIRStatement.saved) ▸ rfl)
  exact hstmts.bind ((terminator_saves h hb.2).bind (bool_saves block.isCleanup).map)

/-- **A body comes back from metadata**, without the flag for naked assembly. -/
theorem function_saves {mir : MIRFunction V} (hm : mir.Whole W) :
    Saves strings refs (W.serialiseFunction mir) R.deserialiseMirFunction mir.saved :=
  (vec_saves_self fun t _ => h.type t).bind ((vec_saves_self fun b _ => bool_saves b).bind
    (vec_saves fun block hmem => basicblock_saves h (hm block hmem)).map)

end Functions

end Trustme.Metadata
