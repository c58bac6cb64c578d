/-
  Subject:   When values, statements and terminators count as the same: the comparisons of
             mir_mir.cpp, hir_asm.cpp and `MIROptimiseUnifyBlocks` (mir_operations.cpp).

  * `sameConstant` .. `sameStatement` -- the comparisons;
  * `terminatorsEqual`: the terminators, without some of their targets;
  * `Conventions`, `Conforms`: what lowering keeps to, for what is not compared;
  * `eq_of_sameStatement`, `terminatorsEqual_facts`: what counts as the same is the same.
-/
import Trustme.Mir.GotoChains

namespace Trustme.Metadata

open Lib Numeric

variable {V : Vocabulary}

/-! ## 1. The comparisons -/

deriving instance DecidableEq for SourceLocation, AsmLineFragment, AsmLine, AsmRegisterSpec,
  MIRSwitchValues, MIRUnwindAction

def sameList {α : Type} (same : α → α → Bool) : List α → List α → Bool
  | [], [] => true
  | a :: l, b :: l' => same a b && sameList same l l'
  | _, _ => false

section Same

variable [DecidableEq V.HIRType] [DecidableEq V.HIRPath] [DecidableEq V.HIRGenericPath]
  [DecidableEq V.HIRPathParams] [DecidableEq V.HIRConstGeneric]

def sameReloc : Reloc V → Reloc V → Bool
  | .named ofs len p preserve, .named ofs' len' p' preserve' =>
    decide (ofs = ofs' ∧ len = len' ∧ preserve = preserve' ∧ p = p')
  | .bytes ofs len bytes, .bytes ofs' len' bytes' =>
    decide (ofs = ofs' ∧ len = len' ∧ bytes = bytes')
  | _, _ => false

def sameLiteral (a b : EncodedLiteral V) : Bool :=
  decide (a.bytes = b.bytes) && sameList sameReloc a.relocations b.relocations

/-- `MIRConstant::ord`. Of a generic only the binding is compared. -/
def sameConstant : MIRConstant V → MIRConstant V → Bool
  | .Int v t, .Int v' t' => decide (v = v' ∧ t = t')
  | .Uint v t, .Uint v' t' => decide (v = v' ∧ t = t')
  | .Float v t, .Float v' t' => decide (v = v' ∧ t = t')
  | .Bool v, .Bool v' => decide (v = v')
  | .Bytes v, .Bytes v' => decide (v = v')
  | .StaticString v, .StaticString v' => decide (v = v')
  | .Const p, .Const p' => decide (p = p')
  | .Generic v, .Generic v' => decide (v.binding = v'.binding)
  | .Function p, .Function p' => decide (p = p')
  | .ItemAddr p offset, .ItemAddr p' offset' => decide (p = p' ∧ offset = offset')
  | .Encoded type value, .Encoded type' value' => decide (type = type') && sameLiteral value value'
  | _, _ => false

def sameParam : MIRParam V → MIRParam V → Bool
  | .LValue v, .LValue v' => decide (v = v')
  | .Borrow type val, .Borrow type' val' => decide (type = type' ∧ val = val')
  | .Constant v, .Constant v' => sameConstant v v'
  | _, _ => false

def sameSize : HIRArraySize V → HIRArraySize V → Bool
  | .Unevaluated v, .Unevaluated v' => decide (v = v')
  | .Known v, .Known v' => decide (v = v')
  | _, _ => false

/-- `operator==`. Whether a borrow is raw is not compared. -/
def sameRValue : MIRRValue V → MIRRValue V → Bool
  | .Use v, .Use v' => decide (v = v')
  | .Constant v, .Constant v' => sameConstant v v'
  | .SizedArray val count, .SizedArray val' count' => sameParam val val' && sameSize count count'
  | .Borrow type _ val, .Borrow type' _ val' => decide (type = type' ∧ val = val')
  | .Cast val type, .Cast val' type' => decide (type = type' ∧ val = val')
  | .BinOp valL op valR, .BinOp valL' op' valR' =>
    sameParam valL valL' && decide (op = op') && sameParam valR valR'
  | .UniOp val op, .UniOp val' op' => decide (op = op' ∧ val = val')
  | .DstPtr val, .DstPtr val' => decide (val = val')
  | .DstMeta val, .DstMeta val' => decide (val = val')
  | .MakeDst ptrVal metaVal, .MakeDst ptrVal' metaVal' =>
    sameParam metaVal metaVal' && sameParam ptrVal ptrVal'
  | .Tuple vals, .Tuple vals' => sameList sameParam vals vals'
  | .Array vals, .Array vals' => sameList sameParam vals vals'
  | .UnionVariant path index val, .UnionVariant path' index' val' =>
    decide (path = path' ∧ index = index') && sameParam val val'
  | .EnumVariant path index vals, .EnumVariant path' index' vals' =>
    decide (path = path' ∧ index = index') && sameList sameParam vals vals'
  | .Struct path vals, .Struct path' vals' =>
    decide (path = path') && sameList sameParam vals vals'
  | _, _ => false

/-- `ae.input && *ae.input != *be.input` is the test for inputs: without one on the left there is
    none. With one on the left only, a null pointer is read; `false` stands for that. -/
def sameInput : Option (MIRParam V) → Option (MIRParam V) → Bool
  | none, _ => true
  | some p, some p' => sameParam p p'
  | some _, none => false

def sameAsmParam : MIRAsmParam V → MIRAsmParam V → Bool
  | .Const v, .Const v' => sameConstant v v'
  | .Sym p, .Sym p' => decide (p = p')
  | .Reg dir spec input output, .Reg dir' spec' input' output' =>
    decide (dir = dir' ∧ spec = spec') && sameInput input input' && decide (output = output')
  | .Label target, .Label target' => decide (target = target')
  | _, _ => false

/-- The comparison of two statements in `blocksEqual`. -/
def sameStatement : MIRStatement V → MIRStatement V → Bool
  | .Assign dst src, .Assign dst' src' => decide (dst = dst') && sameRValue src src'
  | .Asm tpl outputs inputs clobbers flags, .Asm tpl' outputs' inputs' clobbers' flags' =>
    decide (tpl = tpl' ∧ outputs = outputs' ∧ inputs = inputs' ∧ clobbers = clobbers' ∧
      flags = flags')
  | .Asm2 options lines params, .Asm2 options' lines' params' =>
    decide (lines = lines' ∧ options = options') && sameList sameAsmParam params params'
  | .SetDropFlag idx newVal other, .SetDropFlag idx' newVal' other' =>
    decide (idx = idx' ∧ newVal = newVal' ∧ other = other')
  | .LoadDropFlag idx slot bitIndex, .LoadDropFlag idx' slot' bitIndex' =>
    decide (idx = idx' ∧ slot = slot' ∧ bitIndex = bitIndex')
  | .SaveDropFlag slot bitIndex idx, .SaveDropFlag slot' bitIndex' idx' =>
    decide (idx = idx' ∧ slot = slot' ∧ bitIndex = bitIndex')
  | _, _ => false

def sameCallTarget : MIRCallTarget V → MIRCallTarget V → Bool
  | .Value v, .Value v' => decide (v = v')
  | .Path p, .Path p' => decide (p = p')
  | .Intrinsic name params, .Intrinsic name' params' => decide (name = name' ∧ params = params')
  | _, _ => false

def sameTailCallTarget : MIRTailCallTarget V → MIRTailCallTarget V → Bool
  | .Value v, .Value v' => decide (v = v')
  | .Path p, .Path p' => decide (p = p')
  | _, _ => false

/-- `terminatorsEqual`: the targets of a Goto, an If that is false, a SwitchValue without a match
    and a Switch whose flag is not set are left to the hash. -/
def terminatorsEqual : MIRTerminator V → MIRTerminator V → Bool
  | .Incomplete, .Incomplete => true
  | .Return, .Return => true
  | .UnwindResume, .UnwindResume => true
  | .UnwindTerminate, .UnwindTerminate => true
  | .Unreachable, .Unreachable => true
  | .Goto _, .Goto _ => true
  | .If cond bbTrue _, .If cond' bbTrue' _ => decide (cond = cond' ∧ bbTrue = bbTrue')
  | .Switch val targets validFlag _, .Switch val' targets' validFlag' _ =>
    decide (val = val' ∧ targets = targets' ∧ validFlag = validFlag')
  | .SwitchValue val _ targets values, .SwitchValue val' _ targets' values' =>
    decide (val = val' ∧ targets = targets' ∧ values = values')
  | .Drop kind slot flagIdx target unwind, .Drop kind' slot' flagIdx' target' unwind' =>
    decide (kind = kind' ∧ slot = slot' ∧ flagIdx = flagIdx' ∧ target = target' ∧ unwind = unwind')
  | .Call retBlock unwind retVal fcn args source tracksCaller,
      .Call retBlock' unwind' retVal' fcn' args' source' tracksCaller' =>
      decide (retVal = retVal') && sameCallTarget fcn fcn' && sameList sameParam args args' &&
        decide (retBlock = retBlock' ∧ unwind = unwind' ∧ source = source' ∧
          tracksCaller = tracksCaller')
  | .TailCall fcn args source tracksCaller, .TailCall fcn' args' source' tracksCaller' =>
    sameTailCallTarget fcn fcn' && sameList sameParam args args' &&
      decide (source = source' ∧ tracksCaller = tracksCaller')
  | .Asm2 options lines params retBlock, .Asm2 options' lines' params' retBlock' =>
    decide (options = options' ∧ lines = lines') && sameList sameAsmParam params params' &&
      decide (retBlock = retBlock')
  | _, _ => false

end Same

/-! ## 2. What is not compared -/

def AsmDirection.takesInput : AsmDirection → Bool
  | .In | .InOut | .InLateOut => true
  | .Out | .LateOut => false

/-- What lowering goes by: the places that hold raw pointers, and the generics of the function by
    their binding. -/
structure Conventions (V : Vocabulary) where
  isPointer : MIRLValue V → Bool
  generic : BitVec 32 → HIRGenericRef

section Conforms

variable (c : Conventions V)

def MIRConstant.Conforms : MIRConstant V → Prop
  | .Generic v => v = c.generic v.binding
  | _ => True

def MIRParam.Conforms : MIRParam V → Prop
  | .Constant v => v.Conforms c
  | _ => True

/-- A borrow is raw exactly if it goes to a raw pointer. -/
def MIRRValue.Conforms (dst : MIRLValue V) : MIRRValue V → Prop
  | .Borrow _ isRaw _ => isRaw = c.isPointer dst
  | .Constant v => v.Conforms c
  | .SizedArray val _ | .UnionVariant _ _ val => val.Conforms c
  | .BinOp valL _ valR => valL.Conforms c ∧ valR.Conforms c
  | .MakeDst ptrVal metaVal => ptrVal.Conforms c ∧ metaVal.Conforms c
  | .Tuple vals | .Array vals | .EnumVariant _ _ vals | .Struct _ vals => ∀ p ∈ vals, p.Conforms c
  | _ => True

/-- A register operand has an input exactly if its direction has one. -/
def MIRAsmParam.Conforms : MIRAsmParam V → Prop
  | .Const v => v.Conforms c
  | .Reg dir _ input _ => input.isSome = dir.takesInput ∧ ∀ p ∈ input, p.Conforms c
  | _ => True

def MIRStatement.Conforms : MIRStatement V → Prop
  | .Assign dst src => src.Conforms c dst
  | .Asm2 _ _ params => ∀ p ∈ params, p.Conforms c
  | _ => True

def MIRTerminator.Conforms : MIRTerminator V → Prop
  | .Call _ _ _ _ args _ _ | .TailCall _ args _ _ => ∀ p ∈ args, p.Conforms c
  | .Asm2 _ _ params _ => ∀ p ∈ params, p.Conforms c
  | _ => True

def MIRFunction.Conforms (fcn : MIRFunction V) : Prop :=
  ∀ block ∈ fcn.blocks, (∀ x ∈ block.statements, x.Conforms c) ∧ block.terminator.Conforms c

end Conforms

/-! ## 3. What counts as the same is the same -/

theorem eq_of_sameList {α : Type} {same : α → α → Bool} : ∀ {l l' : List α},
    (∀ a ∈ l, ∀ b ∈ l', same a b = true → a = b) → sameList same l l' = true → l = l'
  | [], [], _, _ => rfl
  | [], _ :: _, _, h => by cases h
  | _ :: _, [], _, h => by cases h
  | a :: l, b :: l', hsame, h => by
    rw [sameList, Bool.and_eq_true] at h
    obtain ⟨hab, hll⟩ := h
    have hrest := eq_of_sameList (fun a ha b hb =>
      hsame a (List.mem_cons_of_mem _ ha) b (List.mem_cons_of_mem _ hb)) hll
    rw [hsame a List.mem_cons_self b List.mem_cons_self hab, hrest]

theorem eq_of_sameReloc [DecidableEq V.HIRPath] {a b : Reloc V} (h : sameReloc a b = true) :
    a = b := by
  cases a <;> cases b <;> simp_all [sameReloc]

theorem eq_of_sameSize [DecidableEq V.HIRConstGeneric] {a b : HIRArraySize V}
    (h : sameSize a b = true) : a = b := by
  cases a <;> cases b <;> simp_all [sameSize]

theorem eq_of_sameLiteral [DecidableEq V.HIRPath] {a b : EncodedLiteral V}
    (h : sameLiteral a b = true) : a = b := by
  obtain ⟨bytes, relocations⟩ := a
  obtain ⟨bytes', relocations'⟩ := b
  rw [sameLiteral, Bool.and_eq_true, decide_eq_true_eq] at h
  obtain ⟨hbytes, hrelocs⟩ := h
  have hrelocs' := eq_of_sameList (fun _ _ _ _ => eq_of_sameReloc) hrelocs
  simp_all

theorem eq_of_sameCallTarget [DecidableEq V.HIRPath] [DecidableEq V.HIRPathParams]
    {a b : MIRCallTarget V} (h : sameCallTarget a b = true) : a = b := by
  cases a <;> cases b <;> simp_all [sameCallTarget]

theorem eq_of_sameTailCallTarget [DecidableEq V.HIRPath] {a b : MIRTailCallTarget V}
    (h : sameTailCallTarget a b = true) : a = b := by
  cases a <;> cases b <;> simp_all [sameTailCallTarget]

section Equal

variable [DecidableEq V.HIRType] [DecidableEq V.HIRPath] {c : Conventions V}

theorem eq_of_sameConstant {a b : MIRConstant V} (ha : a.Conforms c) (hb : b.Conforms c)
    (h : sameConstant a b = true) : a = b := by
  cases a with
  | Encoded type value =>
    cases b with
    | Encoded type' value' =>
      rw [sameConstant, Bool.and_eq_true, decide_eq_true_eq] at h
      rw [h.1, eq_of_sameLiteral h.2]
    | _ => cases h
  | Generic v =>
    cases b with
    | Generic v' =>
      have hbinding : v.binding = v'.binding := of_decide_eq_true h
      have hv : v = c.generic v.binding := ha
      have hv' : v' = c.generic v'.binding := hb
      rw [hv, hv', hbinding]
    | _ => cases h
  | _ => cases b <;> simp_all [sameConstant]

theorem eq_of_sameParam {a b : MIRParam V} (ha : a.Conforms c) (hb : b.Conforms c)
    (h : sameParam a b = true) : a = b := by
  cases a with
  | Constant v =>
    cases b with
    | Constant v' => exact congrArg _ (eq_of_sameConstant (c := c) ha hb h)
    | _ => cases h
  | _ => cases b <;> simp_all [sameParam]

theorem eq_of_sameParams {l l' : List (MIRParam V)} (hl : ∀ p ∈ l, p.Conforms c)
    (hl' : ∀ p ∈ l', p.Conforms c) (h : sameList sameParam l l' = true) : l = l' :=
  eq_of_sameList (fun a ha b hb => eq_of_sameParam (hl a ha) (hl' b hb)) h

/-- The missing test for an input on the right does no harm: the directions are compared before. -/
theorem eq_of_sameAsmParam {a b : MIRAsmParam V} (ha : a.Conforms c) (hb : b.Conforms c)
    (h : sameAsmParam a b = true) : a = b := by
  cases a with
  | Const v =>
    cases b with
    | Const v' => exact congrArg _ (eq_of_sameConstant (c := c) ha hb h)
    | _ => cases h
  | Reg dir spec input output =>
    cases b with
    | Reg dir' spec' input' output' =>
      simp only [sameAsmParam, Bool.and_eq_true, decide_eq_true_eq] at h
      obtain ⟨⟨⟨rfl, rfl⟩, hinput⟩, rfl⟩ := h
      obtain ⟨hsome, hconf⟩ := ha
      obtain ⟨hsome', hconf'⟩ := hb
      cases input with
      | none =>
        cases input' with
        | none => rfl
        | some p' => cases hsome.trans hsome'.symm
      | some p =>
        cases input' with
        | none => cases hinput
        | some p' => rw [eq_of_sameParam (hconf p rfl) (hconf' p' rfl) hinput]
    | _ => cases h
  | _ => cases b <;> simp_all [sameAsmParam]

theorem eq_of_sameAsmParams {l l' : List (MIRAsmParam V)} (hl : ∀ p ∈ l, p.Conforms c)
    (hl' : ∀ p ∈ l', p.Conforms c) (h : sameList sameAsmParam l l' = true) : l = l' :=
  eq_of_sameList (fun a ha b hb => eq_of_sameAsmParam (hl a ha) (hl' b hb)) h

variable [DecidableEq V.HIRGenericPath] [DecidableEq V.HIRConstGeneric]

theorem eq_of_sameRValue {dst : MIRLValue V} {a b : MIRRValue V} (ha : a.Conforms c dst)
    (hb : b.Conforms c dst) (h : sameRValue a b = true) : a = b := by
  cases a with
  | Borrow type isRaw val =>
    cases b with
    | Borrow type' isRaw' val' =>
      obtain ⟨htype, hval⟩ := of_decide_eq_true h
      have hraw : isRaw = c.isPointer dst := ha
      have hraw' : isRaw' = c.isPointer dst := hb
      rw [htype, hval, hraw, hraw']
    | _ => cases h
  | Constant v =>
    cases b with
    | Constant v' => exact congrArg _ (eq_of_sameConstant (c := c) ha hb h)
    | _ => cases h
  | SizedArray val count =>
    cases b with
    | SizedArray val' count' =>
      rw [sameRValue, Bool.and_eq_true] at h
      rw [eq_of_sameParam ha hb h.1, eq_of_sameSize h.2]
    | _ => cases h
  | BinOp valL op valR =>
    cases b with
    | BinOp valL' op' valR' =>
      simp only [sameRValue, Bool.and_eq_true, decide_eq_true_eq] at h
      obtain ⟨⟨hl, hop⟩, hr⟩ := h
      rw [eq_of_sameParam ha.1 hb.1 hl, hop, eq_of_sameParam ha.2 hb.2 hr]
    | _ => cases h
  | MakeDst ptrVal metaVal =>
    cases b with
    | MakeDst ptrVal' metaVal' =>
      rw [sameRValue, Bool.and_eq_true] at h
      rw [eq_of_sameParam ha.2 hb.2 h.1, eq_of_sameParam ha.1 hb.1 h.2]
    | _ => cases h
  | Tuple vals =>
    cases b with
    | Tuple vals' => exact congrArg _ (eq_of_sameParams (c := c) ha hb h)
    | _ => cases h
  | Array vals =>
    cases b with
    | Array vals' => exact congrArg _ (eq_of_sameParams (c := c) ha hb h)
    | _ => cases h
  | UnionVariant path index val =>
    cases b with
    | UnionVariant path' index' val' =>
      rw [sameRValue, Bool.and_eq_true, decide_eq_true_eq] at h
      obtain ⟨⟨rfl, rfl⟩, hval⟩ := h
      rw [eq_of_sameParam ha hb hval]
    | _ => cases h
  | EnumVariant path index vals =>
    cases b with
    | EnumVariant path' index' vals' =>
      rw [sameRValue, Bool.and_eq_true, decide_eq_true_eq] at h
      obtain ⟨⟨rfl, rfl⟩, hvals⟩ := h
      rw [eq_of_sameParams ha hb hvals]
    | _ => cases h
  | Struct path vals =>
    cases b with
    | Struct path' vals' =>
      rw [sameRValue, Bool.and_eq_true, decide_eq_true_eq] at h
      obtain ⟨rfl, hvals⟩ := h
      rw [eq_of_sameParams ha hb hvals]
    | _ => cases h
  | _ => cases b <;> simp_all [sameRValue]

theorem eq_of_sameStatement {a b : MIRStatement V} (ha : a.Conforms c) (hb : b.Conforms c)
    (h : sameStatement a b = true) : a = b := by
  cases a with
  | Assign dst src =>
    cases b with
    | Assign dst' src' =>
      rw [sameStatement, Bool.and_eq_true, decide_eq_true_eq] at h
      obtain ⟨rfl, hsrc⟩ := h
      rw [eq_of_sameRValue ha hb hsrc]
    | _ => cases h
  | Asm2 options lines params =>
    cases b with
    | Asm2 options' lines' params' =>
      rw [sameStatement, Bool.and_eq_true, decide_eq_true_eq] at h
      obtain ⟨⟨rfl, rfl⟩, hparams⟩ := h
      rw [eq_of_sameAsmParams ha hb hparams]
    | _ => cases h
  | _ => cases b <;> simp_all [sameStatement]

omit [DecidableEq V.HIRGenericPath] [DecidableEq V.HIRConstGeneric] in
/-- Terminators that compare equal differ in their last target at most. -/
theorem terminatorsEqual_facts [DecidableEq V.HIRPathParams] {a b : MIRTerminator V}
    (ha : a.Conforms c) (hb : b.Conforms c)
    (h : terminatorsEqual a b = true) : a.shape = b.shape ∧
      (a.targets = b.targets ∨ ∃ l x y, a.targets = l ++ [x] ∧ b.targets = l ++ [y]) := by
  cases a with
  | Goto target =>
    cases b with
    | Goto target' => exact ⟨rfl, .inr ⟨[], target, target', rfl, rfl⟩⟩
    | _ => cases h
  | If cond bbTrue bbFalse =>
    cases b with
    | If cond' bbTrue' bbFalse' =>
      obtain ⟨rfl, rfl⟩ := of_decide_eq_true h
      exact ⟨rfl, .inr ⟨[bbTrue], bbFalse, bbFalse', rfl, rfl⟩⟩
    | _ => cases h
  | Switch val targets validFlag invalidTarget =>
    cases b with
    | Switch val' targets' validFlag' invalidTarget' =>
      obtain ⟨rfl, rfl, rfl⟩ := of_decide_eq_true h
      refine ⟨rfl, ?_⟩
      by_cases hv : validFlag = NONE
      · exact .inl (by simp [MIRTerminator.targets, hv])
      · exact .inr ⟨targets, invalidTarget, invalidTarget', by simp [MIRTerminator.targets, hv],
          by simp [MIRTerminator.targets, hv]⟩
    | _ => cases h
  | SwitchValue val defTarget targets values =>
    cases b with
    | SwitchValue val' defTarget' targets' values' =>
      obtain ⟨rfl, rfl, rfl⟩ := of_decide_eq_true h
      exact ⟨rfl, .inr ⟨targets, defTarget, defTarget', rfl, rfl⟩⟩
    | _ => cases h
  | Drop kind slot flagIdx target unwind =>
    cases b with
    | Drop kind' slot' flagIdx' target' unwind' =>
      obtain ⟨rfl, rfl, rfl, rfl, rfl⟩ := of_decide_eq_true h
      exact ⟨rfl, .inl rfl⟩
    | _ => cases h
  | Call retBlock unwind retVal fcn args source tracksCaller =>
    cases b with
    | Call retBlock' unwind' retVal' fcn' args' source' tracksCaller' =>
      simp only [terminatorsEqual, Bool.and_eq_true, decide_eq_true_eq] at h
      obtain ⟨⟨⟨rfl, hfcn⟩, hargs⟩, rfl, rfl, rfl, rfl⟩ := h
      obtain rfl := eq_of_sameCallTarget hfcn
      obtain rfl := eq_of_sameParams ha hb hargs
      exact ⟨rfl, .inl rfl⟩
    | _ => cases h
  | TailCall fcn args source tracksCaller =>
    cases b with
    | TailCall fcn' args' source' tracksCaller' =>
      simp only [terminatorsEqual, Bool.and_eq_true, decide_eq_true_eq] at h
      obtain ⟨⟨hfcn, hargs⟩, rfl, rfl⟩ := h
      obtain rfl := eq_of_sameTailCallTarget hfcn
      obtain rfl := eq_of_sameParams ha hb hargs
      exact ⟨rfl, .inl rfl⟩
    | _ => cases h
  | Asm2 options lines params retBlock =>
    cases b with
    | Asm2 options' lines' params' retBlock' =>
      simp only [terminatorsEqual, Bool.and_eq_true, decide_eq_true_eq] at h
      obtain ⟨⟨⟨rfl, rfl⟩, hparams⟩, rfl⟩ := h
      obtain rfl := eq_of_sameAsmParams ha hb hparams
      exact ⟨rfl, .inl rfl⟩
    | _ => cases h
  | _ =>
    cases b <;> first | exact ⟨rfl, .inl rfl⟩ | cases h

end Equal

end Trustme.Metadata
