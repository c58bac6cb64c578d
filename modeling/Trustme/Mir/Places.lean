/-
  Subject:   The places that statements and terminators of a MIR function are about: the
             `optVisitMirLvaluesMut` functions (mir_operations.cpp), and the drop flags.

  * `visit`: new places are put for the old ones, those of Borrow operands apart;
  * `places`, `borrowed`: the places that are visited;
  * `visit_congr`, `visit_defined`: a visit only depends on these;
  * `flags`, `mapFlags`: the drop flags;
  * `MIRLValue.locals`: the locals that a place names, as its root and in its indices.
-/
import Trustme.Mir.Executions

namespace Trustme.Metadata

variable {V : Vocabulary}

/-! ## 1. Visits -/

/-- Visits one after another; the first failure is the result. -/
def visitAll {α β : Type} (g : α → Option β) : List α → Option (List β)
  | [] => some []
  | a :: l => (g a).bind fun a' => (visitAll g l).map (a' :: ·)

section Visit

variable (f b : MIRLValue V → Option (MIRLValue V))

/-- With `some` for `b`, this is `visitMirLvalueMut` of an operand, which leaves borrows alone. -/
def MIRParam.visit : MIRParam V → Option (MIRParam V)
  | .LValue v => (f v).map .LValue
  | .Borrow type val => (b val).map (.Borrow type)
  | .Constant v => some (.Constant v)

def MIRRValue.visit : MIRRValue V → Option (MIRRValue V)
  | .Use v => (f v).map .Use
  | .Borrow type isRaw val => (f val).map (.Borrow type isRaw)
  | .Constant v => some (.Constant v)
  | .SizedArray val count => (val.visit f b).map (.SizedArray · count)
  | .Cast val type => (f val).map (.Cast · type)
  | .BinOp valL op valR => (valL.visit f b).bind fun l => (valR.visit f b).map (.BinOp l op)
  | .UniOp val op => (f val).map (.UniOp · op)
  | .DstMeta val => (f val).map .DstMeta
  | .DstPtr val => (f val).map .DstPtr
  | .MakeDst ptrVal metaVal => (ptrVal.visit f b).bind fun p => (metaVal.visit f b).map (.MakeDst p)
  | .Tuple vals => (visitAll (·.visit f b) vals).map .Tuple
  | .Array vals => (visitAll (·.visit f b) vals).map .Array
  | .UnionVariant path index val => (val.visit f b).map (.UnionVariant path index)
  | .EnumVariant path index vals => (visitAll (·.visit f b) vals).map (.EnumVariant path index)
  | .Struct path vals => (visitAll (·.visit f b) vals).map (.Struct path)

def visitInput : Option (MIRParam V) → Option (Option (MIRParam V))
  | none => some none
  | some p => (p.visit f b).map some

def visitOutput : Option (MIRLValue V) → Option (Option (MIRLValue V))
  | none => some none
  | some v => (f v).map some

def MIRAsmParam.visit : MIRAsmParam V → Option (MIRAsmParam V)
  | .Reg dir spec input output =>
    (visitInput f b input).bind fun i => (visitOutput f output).map (.Reg dir spec i)
  | p => some p

/-- An operand of `llvm_asm!`, with its constraint. -/
def visitNamed (v : Str × MIRLValue V) : Option (Str × MIRLValue V) := (f v.2).map (v.1, ·)

def MIRStatement.visit : MIRStatement V → Option (MIRStatement V)
  | .Assign dst src => (src.visit f b).bind fun s => (f dst).map (.Assign · s)
  | .Asm tpl outputs inputs clobbers flags =>
    (visitAll (visitNamed f) inputs).bind fun i =>
      (visitAll (visitNamed f) outputs).map fun o => .Asm tpl o i clobbers flags
  | .Asm2 options lines params => (visitAll (·.visit f b) params).map (.Asm2 options lines)
  | .SetDropFlag idx newVal other => some (.SetDropFlag idx newVal other)
  | .SaveDropFlag slot bitIndex idx => (f slot).map (.SaveDropFlag · bitIndex idx)
  | .LoadDropFlag idx slot bitIndex => (f slot).map (.LoadDropFlag idx · bitIndex)

def MIRCallTarget.visit : MIRCallTarget V → Option (MIRCallTarget V)
  | .Value v => (f v).map .Value
  | t => some t

def MIRTailCallTarget.visit : MIRTailCallTarget V → Option (MIRTailCallTarget V)
  | .Value v => (f v).map .Value
  | t => some t

def MIRTerminator.visit : MIRTerminator V → Option (MIRTerminator V)
  | .If cond bbTrue bbFalse => (f cond).map (.If · bbTrue bbFalse)
  | .Switch val targets validFlag invalidTarget =>
    (f val).map (.Switch · targets validFlag invalidTarget)
  | .SwitchValue val defTarget targets values =>
    (f val).map (.SwitchValue · defTarget targets values)
  | .Drop kind slot flagIdx target unwind => (f slot).map (.Drop kind · flagIdx target unwind)
  | .Call retBlock unwind retVal fcn args source tracksCaller =>
    (fcn.visit f).bind fun c => (visitAll (·.visit f b) args).bind fun a =>
      (f retVal).map fun r => .Call retBlock unwind r c a source tracksCaller
  | .TailCall fcn args source tracksCaller =>
    (fcn.visit f).bind fun c =>
      (visitAll (·.visit f b) args).map fun a => .TailCall c a source tracksCaller
  | .Asm2 options lines params retBlock =>
    (visitAll (·.visit f b) params).map (.Asm2 options lines · retBlock)
  | t => some t

end Visit

/-! ## 2. The places -/

def MIRParam.places : MIRParam V → List (MIRLValue V)
  | .LValue v => [v]
  | _ => []

/-- The place of an operand that borrows it. -/
def MIRParam.borrowed : MIRParam V → List (MIRLValue V)
  | .Borrow _ val => [val]
  | _ => []

/-- The operands of a value. -/
def MIRRValue.params : MIRRValue V → List (MIRParam V)
  | .SizedArray val _ | .UnionVariant _ _ val => [val]
  | .BinOp valL _ valR => [valL, valR]
  | .MakeDst ptrVal metaVal => [ptrVal, metaVal]
  | .Tuple vals | .Array vals | .EnumVariant _ _ vals | .Struct _ vals => vals
  | _ => []

/-- The places of a value that are no operands. -/
def MIRRValue.direct : MIRRValue V → List (MIRLValue V)
  | .Use v | .Borrow _ _ v | .Cast v _ | .UniOp v _ | .DstMeta v | .DstPtr v => [v]
  | _ => []

def MIRAsmParam.params : MIRAsmParam V → List (MIRParam V)
  | .Reg _ _ input _ => input.toList
  | _ => []

def MIRAsmParam.direct : MIRAsmParam V → List (MIRLValue V)
  | .Reg _ _ _ output => output.toList
  | _ => []

def MIRStatement.params : MIRStatement V → List (MIRParam V)
  | .Assign _ src => src.params
  | .Asm2 _ _ params => params.flatMap (·.params)
  | _ => []

def MIRStatement.direct : MIRStatement V → List (MIRLValue V)
  | .Assign dst src => dst :: src.direct
  | .Asm _ outputs inputs _ _ => (inputs ++ outputs).map (·.2)
  | .Asm2 _ _ params => params.flatMap (·.direct)
  | .SetDropFlag _ _ _ => []
  | .SaveDropFlag slot _ _ | .LoadDropFlag _ slot _ => [slot]

def MIRCallTarget.direct : MIRCallTarget V → List (MIRLValue V)
  | .Value v => [v]
  | _ => []

def MIRTailCallTarget.direct : MIRTailCallTarget V → List (MIRLValue V)
  | .Value v => [v]
  | _ => []

def MIRTerminator.params : MIRTerminator V → List (MIRParam V)
  | .Call _ _ _ _ args _ _ | .TailCall _ args _ _ => args
  | .Asm2 _ _ params _ => params.flatMap (·.params)
  | _ => []

def MIRTerminator.direct : MIRTerminator V → List (MIRLValue V)
  | .If v _ _ | .Switch v _ _ _ | .SwitchValue v _ _ _ | .Drop _ v _ _ _ => [v]
  | .Call _ _ retVal fcn _ _ _ => retVal :: fcn.direct
  | .TailCall fcn _ _ _ => fcn.direct
  | .Asm2 _ _ params _ => params.flatMap (·.direct)
  | _ => []

def MIRStatement.places (x : MIRStatement V) : List (MIRLValue V) :=
  x.direct ++ x.params.flatMap (·.places)

def MIRStatement.borrowed (x : MIRStatement V) : List (MIRLValue V) :=
  x.params.flatMap (·.borrowed)

def MIRTerminator.places (t : MIRTerminator V) : List (MIRLValue V) :=
  t.direct ++ t.params.flatMap (·.places)

def MIRTerminator.borrowed (t : MIRTerminator V) : List (MIRLValue V) :=
  t.params.flatMap (·.borrowed)

/-! ## 3. What a visit depends on -/

theorem visitAll_congr {α β : Type} {g g' : α → Option β} : ∀ {l : List α},
    (∀ a ∈ l, g a = g' a) → visitAll g l = visitAll g' l
  | [], _ => rfl
  | a :: l, h => by
    rw [visitAll, visitAll, h a List.mem_cons_self,
      visitAll_congr fun a ha => h a (List.mem_cons_of_mem _ ha)]

theorem visitAll_defined {α β : Type} {g : α → Option β} : ∀ {l : List α},
    (∀ a ∈ l, ∃ a', g a = some a') → ∃ l', visitAll g l = some l'
  | [], _ => ⟨[], rfl⟩
  | a :: l, h => by
    obtain ⟨a', ha⟩ := h a List.mem_cons_self
    obtain ⟨l', hl⟩ := visitAll_defined fun a ha => h a (List.mem_cons_of_mem _ ha)
    exact ⟨a' :: l', by rw [visitAll, ha, Option.bind_some, hl, Option.map_some]⟩

section Congr

variable {f f' b b' : MIRLValue V → Option (MIRLValue V)}

/-- Two visits that do the same to some operands. -/
def Agree (f f' b b' : MIRLValue V → Option (MIRLValue V)) (direct : List (MIRLValue V))
    (params : List (MIRParam V)) : Prop :=
  (∀ v ∈ direct, f v = f' v) ∧ ∀ p ∈ params, p.visit f b = p.visit f' b'

theorem agree_of_places {direct : List (MIRLValue V)} {params : List (MIRParam V)}
    (hf : ∀ v ∈ direct ++ params.flatMap (·.places), f v = f' v)
    (hb : ∀ v ∈ params.flatMap (·.borrowed), b v = b' v) : Agree f f' b b' direct params := by
  refine ⟨fun v hv => hf v (List.mem_append_left _ hv), fun p hp => ?_⟩
  cases p with
  | LValue v =>
    have hv := hf v (List.mem_append_right _ (List.mem_flatMap.2 ⟨_, hp, List.mem_cons_self⟩))
    rw [MIRParam.visit, MIRParam.visit, hv]
  | Borrow type val =>
    have hv := hb val (List.mem_flatMap.2 ⟨_, hp, List.mem_cons_self⟩)
    rw [MIRParam.visit, MIRParam.visit, hv]
  | Constant v => rfl

theorem MIRRValue.visit_congr {r : MIRRValue V} (h : Agree f f' b b' r.direct r.params) :
    r.visit f b = r.visit f' b' := by
  obtain ⟨hd, hp⟩ := h
  cases r with
  | Tuple vals => exact congrArg (Option.map _) (visitAll_congr hp)
  | Array vals => exact congrArg (Option.map _) (visitAll_congr hp)
  | EnumVariant path index vals => exact congrArg (Option.map _) (visitAll_congr hp)
  | Struct path vals => exact congrArg (Option.map _) (visitAll_congr hp)
  | _ => simp_all [visit, direct, params]

theorem MIRAsmParam.visit_congr {p : MIRAsmParam V} (h : Agree f f' b b' p.direct p.params) :
    p.visit f b = p.visit f' b' := by
  obtain ⟨hd, hp⟩ := h
  cases p with
  | Reg dir spec input output =>
    cases input <;> cases output <;>
      simp_all [visit, visitInput, visitOutput, direct, params]
  | _ => rfl

theorem visitAsmParams_congr {l : List (MIRAsmParam V)}
    (h : Agree f f' b b' (l.flatMap (·.direct)) (l.flatMap (·.params))) :
    visitAll (·.visit f b) l = visitAll (·.visit f' b') l :=
  visitAll_congr fun p hp => MIRAsmParam.visit_congr
    ⟨fun v hv => h.1 v (List.mem_flatMap.2 ⟨p, hp, hv⟩),
      fun q hq => h.2 q (List.mem_flatMap.2 ⟨p, hp, hq⟩)⟩

theorem MIRStatement.visit_congr {x : MIRStatement V} (hf : ∀ v ∈ x.places, f v = f' v)
    (hb : ∀ v ∈ x.borrowed, b v = b' v) : x.visit f b = x.visit f' b' := by
  obtain ⟨hd, hp⟩ := agree_of_places hf hb
  cases x with
  | Assign dst src =>
    have hsrc := MIRRValue.visit_congr ⟨fun v hv => hd v (List.mem_cons_of_mem _ hv), hp⟩
    rw [visit, visit, hsrc, hd dst List.mem_cons_self]
  | Asm tpl outputs inputs clobbers flags =>
    have hnamed : ∀ v ∈ inputs ++ outputs, visitNamed f v = visitNamed f' v := fun v hv => by
      rw [visitNamed, visitNamed, hd v.2 (List.mem_map_of_mem hv)]
    rw [visit, visit, visitAll_congr fun v hv => hnamed v (List.mem_append_left _ hv),
      visitAll_congr fun v hv => hnamed v (List.mem_append_right _ hv)]
  | Asm2 options lines params => rw [visit, visit, visitAsmParams_congr ⟨hd, hp⟩]
  | SetDropFlag idx newVal other => rfl
  | SaveDropFlag slot bitIndex idx => rw [visit, visit, hd slot List.mem_cons_self]
  | LoadDropFlag idx slot bitIndex => rw [visit, visit, hd slot List.mem_cons_self]

theorem MIRTerminator.visit_congr {t : MIRTerminator V} (hf : ∀ v ∈ t.places, f v = f' v)
    (hb : ∀ v ∈ t.borrowed, b v = b' v) : t.visit f b = t.visit f' b' := by
  obtain ⟨hd, hp⟩ := agree_of_places hf hb
  cases t with
  | Call retBlock unwind retVal fcn args source tracksCaller =>
    have hfcn : fcn.visit f = fcn.visit f' := by
      cases fcn with
      | Value v =>
        have hv := hd v (List.mem_cons_of_mem _ List.mem_cons_self)
        rw [MIRCallTarget.visit, MIRCallTarget.visit, hv]
      | _ => rfl
    have hargs : visitAll (·.visit f b) args = visitAll (·.visit f' b') args := visitAll_congr hp
    rw [visit, visit, hfcn, hargs, hd retVal List.mem_cons_self]
  | TailCall fcn args source tracksCaller =>
    have hfcn : fcn.visit f = fcn.visit f' := by
      cases fcn with
      | Value v => rw [MIRTailCallTarget.visit, MIRTailCallTarget.visit, hd v List.mem_cons_self]
      | _ => rfl
    have hargs : visitAll (·.visit f b) args = visitAll (·.visit f' b') args := visitAll_congr hp
    rw [visit, visit, hfcn, hargs]
  | Asm2 options lines params retBlock => rw [visit, visit, visitAsmParams_congr ⟨hd, hp⟩]
  | _ => simp_all [visit, direct]

end Congr

/-! ## 4. Visits that do not fail -/

section Defined

variable {f b : MIRLValue V → Option (MIRLValue V)}

/-- A visit that does not fail at some operands. -/
def Succeeds (f b : MIRLValue V → Option (MIRLValue V)) (direct : List (MIRLValue V))
    (params : List (MIRParam V)) : Prop :=
  (∀ v ∈ direct, ∃ v', f v = some v') ∧ ∀ p ∈ params, ∃ p', p.visit f b = some p'

theorem succeeds_of_places {direct : List (MIRLValue V)} {params : List (MIRParam V)}
    (hf : ∀ v ∈ direct ++ params.flatMap (·.places), ∃ v', f v = some v')
    (hb : ∀ v ∈ params.flatMap (·.borrowed), ∃ v', b v = some v') : Succeeds f b direct params := by
  refine ⟨fun v hv => hf v (List.mem_append_left _ hv), fun p hp => ?_⟩
  cases p with
  | LValue v =>
    obtain ⟨v', hv⟩ :=
      hf v (List.mem_append_right _ (List.mem_flatMap.2 ⟨_, hp, List.mem_cons_self⟩))
    exact ⟨.LValue v', by rw [MIRParam.visit, hv]; rfl⟩
  | Borrow type val =>
    obtain ⟨v', hv⟩ := hb val (List.mem_flatMap.2 ⟨_, hp, List.mem_cons_self⟩)
    exact ⟨.Borrow type v', by rw [MIRParam.visit, hv]; rfl⟩
  | Constant v => exact ⟨.Constant v, rfl⟩

theorem MIRRValue.visit_defined {r : MIRRValue V} (h : Succeeds f b r.direct r.params) :
    ∃ r', r.visit f b = some r' := by
  obtain ⟨hd, hp⟩ := h
  have hall : ∀ vals, (∀ p ∈ vals, p ∈ r.params) → ∃ vals', visitAll (·.visit f b) vals =
    some vals' :=
    fun vals hvals => visitAll_defined fun p hmem => hp p (hvals p hmem)
  cases r with
  | Constant v => exact ⟨_, rfl⟩
  | Tuple vals =>
    obtain ⟨vals', hvals⟩ := hall vals fun p hmem => hmem
    exact ⟨.Tuple vals', by rw [visit, hvals]; rfl⟩
  | Array vals =>
    obtain ⟨vals', hvals⟩ := hall vals fun p hmem => hmem
    exact ⟨.Array vals', by rw [visit, hvals]; rfl⟩
  | EnumVariant path index vals =>
    obtain ⟨vals', hvals⟩ := hall vals fun p hmem => hmem
    exact ⟨.EnumVariant path index vals', by rw [visit, hvals]; rfl⟩
  | Struct path vals =>
    obtain ⟨vals', hvals⟩ := hall vals fun p hmem => hmem
    exact ⟨.Struct path vals', by rw [visit, hvals]; rfl⟩
  | SizedArray val count =>
    obtain ⟨val', hval⟩ := hp val List.mem_cons_self
    exact ⟨.SizedArray val' count, by rw [visit, hval]; rfl⟩
  | UnionVariant path index val =>
    obtain ⟨val', hval⟩ := hp val List.mem_cons_self
    exact ⟨.UnionVariant path index val', by rw [visit, hval]; rfl⟩
  | BinOp valL op valR =>
    obtain ⟨l, hl⟩ := hp valL List.mem_cons_self
    obtain ⟨r, hr⟩ := hp valR (List.mem_cons_of_mem _ List.mem_cons_self)
    exact ⟨.BinOp l op r, by rw [visit, hl, Option.bind_some, hr]; rfl⟩
  | MakeDst ptrVal metaVal =>
    obtain ⟨l, hl⟩ := hp ptrVal List.mem_cons_self
    obtain ⟨r, hr⟩ := hp metaVal (List.mem_cons_of_mem _ List.mem_cons_self)
    exact ⟨.MakeDst l r, by rw [visit, hl, Option.bind_some, hr]; rfl⟩
  | Use v =>
    obtain ⟨v', hv⟩ := hd v List.mem_cons_self
    exact ⟨.Use v', by rw [visit, hv]; rfl⟩
  | Borrow type isRaw v =>
    obtain ⟨v', hv⟩ := hd v List.mem_cons_self
    exact ⟨.Borrow type isRaw v', by rw [visit, hv]; rfl⟩
  | Cast v type =>
    obtain ⟨v', hv⟩ := hd v List.mem_cons_self
    exact ⟨.Cast v' type, by rw [visit, hv]; rfl⟩
  | UniOp v op =>
    obtain ⟨v', hv⟩ := hd v List.mem_cons_self
    exact ⟨.UniOp v' op, by rw [visit, hv]; rfl⟩
  | DstMeta v =>
    obtain ⟨v', hv⟩ := hd v List.mem_cons_self
    exact ⟨.DstMeta v', by rw [visit, hv]; rfl⟩
  | DstPtr v =>
    obtain ⟨v', hv⟩ := hd v List.mem_cons_self
    exact ⟨.DstPtr v', by rw [visit, hv]; rfl⟩

theorem MIRAsmParam.visit_defined {p : MIRAsmParam V} (h : Succeeds f b p.direct p.params) :
    ∃ p', p.visit f b = some p' := by
  obtain ⟨hd, hp⟩ := h
  cases p with
  | Reg dir spec input output =>
    obtain ⟨i, hi⟩ : ∃ i, visitInput f b input = some i := by
      cases input with
      | none => exact ⟨none, rfl⟩
      | some q =>
        obtain ⟨q', hq⟩ := hp q List.mem_cons_self
        exact ⟨some q', by rw [visitInput, hq]; rfl⟩
    obtain ⟨o, ho⟩ : ∃ o, visitOutput f output = some o := by
      cases output with
      | none => exact ⟨none, rfl⟩
      | some v =>
        obtain ⟨v', hv⟩ := hd v List.mem_cons_self
        exact ⟨some v', by rw [visitOutput, hv]; rfl⟩
    exact ⟨.Reg dir spec i o, by rw [visit, hi, Option.bind_some, ho]; rfl⟩
  | Const v => exact ⟨_, rfl⟩
  | Sym p => exact ⟨_, rfl⟩
  | Label target => exact ⟨_, rfl⟩

theorem visitAsmParams_defined {l : List (MIRAsmParam V)}
    (h : Succeeds f b (l.flatMap (·.direct)) (l.flatMap (·.params))) :
    ∃ l', visitAll (·.visit f b) l = some l' :=
  visitAll_defined fun p hp => MIRAsmParam.visit_defined
    ⟨fun v hv => h.1 v (List.mem_flatMap.2 ⟨p, hp, hv⟩),
      fun q hq => h.2 q (List.mem_flatMap.2 ⟨p, hp, hq⟩)⟩

theorem MIRStatement.visit_defined {x : MIRStatement V} (hf : ∀ v ∈ x.places, ∃ v', f v = some v')
    (hb : ∀ v ∈ x.borrowed, ∃ v', b v = some v') : ∃ x', x.visit f b = some x' := by
  obtain ⟨hd, hp⟩ := succeeds_of_places hf hb
  cases x with
  | Assign dst src =>
    obtain ⟨src', hsrc⟩ := MIRRValue.visit_defined
      ⟨fun v hv => hd v (List.mem_cons_of_mem _ hv), hp⟩
    obtain ⟨dst', hdst⟩ := hd dst List.mem_cons_self
    exact ⟨.Assign dst' src', by rw [visit, hsrc, Option.bind_some, hdst]; rfl⟩
  | Asm tpl outputs inputs clobbers flags =>
    have hnamed : ∀ v ∈ inputs ++ outputs, ∃ v', visitNamed f v = some v' := fun v hv => by
      obtain ⟨v', hv'⟩ := hd v.2 (List.mem_map_of_mem hv)
      exact ⟨(v.1, v'), by rw [visitNamed, hv']; rfl⟩
    obtain ⟨i, hi⟩ := visitAll_defined fun v hv => hnamed v (List.mem_append_left _ hv)
    obtain ⟨o, ho⟩ := visitAll_defined fun v hv => hnamed v (List.mem_append_right _ hv)
    exact ⟨.Asm tpl o i clobbers flags, by rw [visit, hi, Option.bind_some, ho]; rfl⟩
  | Asm2 options lines params =>
    obtain ⟨params', hparams⟩ := visitAsmParams_defined ⟨hd, hp⟩
    exact ⟨.Asm2 options lines params', by rw [visit, hparams]; rfl⟩
  | SetDropFlag idx newVal other => exact ⟨_, rfl⟩
  | SaveDropFlag slot bitIndex idx =>
    obtain ⟨slot', hslot⟩ := hd slot List.mem_cons_self
    exact ⟨.SaveDropFlag slot' bitIndex idx, by rw [visit, hslot]; rfl⟩
  | LoadDropFlag idx slot bitIndex =>
    obtain ⟨slot', hslot⟩ := hd slot List.mem_cons_self
    exact ⟨.LoadDropFlag idx slot' bitIndex, by rw [visit, hslot]; rfl⟩

theorem MIRTerminator.visit_defined {t : MIRTerminator V} (hf : ∀ v ∈ t.places, ∃ v', f v = some v')
    (hb : ∀ v ∈ t.borrowed, ∃ v', b v = some v') : ∃ t', t.visit f b = some t' := by
  obtain ⟨hd, hp⟩ := succeeds_of_places hf hb
  cases t with
  | If v bbTrue bbFalse =>
    obtain ⟨v', hv⟩ := hd v List.mem_cons_self
    exact ⟨.If v' bbTrue bbFalse, by rw [visit, hv]; rfl⟩
  | Switch v targets validFlag invalidTarget =>
    obtain ⟨v', hv⟩ := hd v List.mem_cons_self
    exact ⟨.Switch v' targets validFlag invalidTarget, by rw [visit, hv]; rfl⟩
  | SwitchValue v defTarget targets values =>
    obtain ⟨v', hv⟩ := hd v List.mem_cons_self
    exact ⟨.SwitchValue v' defTarget targets values, by rw [visit, hv]; rfl⟩
  | Drop kind v flagIdx target unwind =>
    obtain ⟨v', hv⟩ := hd v List.mem_cons_self
    exact ⟨.Drop kind v' flagIdx target unwind, by rw [visit, hv]; rfl⟩
  | Call retBlock unwind retVal fcn args source tracksCaller =>
    obtain ⟨c, hc⟩ : ∃ c, fcn.visit f = some c := by
      cases fcn with
      | Value v =>
        obtain ⟨v', hv⟩ := hd v (List.mem_cons_of_mem _ List.mem_cons_self)
        exact ⟨.Value v', by rw [MIRCallTarget.visit, hv]; rfl⟩
      | Path p => exact ⟨_, rfl⟩
      | Intrinsic name params => exact ⟨_, rfl⟩
    obtain ⟨a, ha⟩ : ∃ a, visitAll (·.visit f b) args = some a := visitAll_defined hp
    obtain ⟨r, hr⟩ := hd retVal List.mem_cons_self
    exact ⟨.Call retBlock unwind r c a source tracksCaller, by
      rw [visit, hc, Option.bind_some, ha, Option.bind_some, hr]
      rfl⟩
  | TailCall fcn args source tracksCaller =>
    obtain ⟨c, hc⟩ : ∃ c, fcn.visit f = some c := by
      cases fcn with
      | Value v =>
        obtain ⟨v', hv⟩ := hd v List.mem_cons_self
        exact ⟨.Value v', by rw [MIRTailCallTarget.visit, hv]; rfl⟩
      | Path p => exact ⟨_, rfl⟩
    obtain ⟨a, ha⟩ : ∃ a, visitAll (·.visit f b) args = some a := visitAll_defined hp
    exact ⟨.TailCall c a source tracksCaller, by rw [visit, hc, Option.bind_some, ha]; rfl⟩
  | Asm2 options lines params retBlock =>
    obtain ⟨params', hparams⟩ := visitAsmParams_defined ⟨hd, hp⟩
    exact ⟨.Asm2 options lines params' retBlock, by rw [visit, hparams]; rfl⟩
  | _ => exact ⟨_, rfl⟩

end Defined

/-! ## 5. Drop flags -/

/-- The flags that a statement names; `~0u` is none. -/
def MIRStatement.flags : MIRStatement V → List (BitVec 32)
  | .SetDropFlag idx _ other => idx :: if other ≠ NONE then [other] else []
  | .SaveDropFlag _ _ idx | .LoadDropFlag idx _ _ => [idx]
  | _ => []

def MIRTerminator.flags : MIRTerminator V → List (BitVec 32)
  | .Drop _ _ flag _ _ | .Switch _ _ flag _ => if flag ≠ NONE then [flag] else []
  | _ => []

section MapFlags

variable (g : BitVec 32 → BitVec 32)

def mapFlag (flag : BitVec 32) : BitVec 32 := if flag ≠ NONE then g flag else flag

def MIRStatement.mapFlags : MIRStatement V → MIRStatement V
  | .SetDropFlag idx newVal other => .SetDropFlag (g idx) newVal (mapFlag g other)
  | .SaveDropFlag slot bitIndex idx => .SaveDropFlag slot bitIndex (g idx)
  | .LoadDropFlag idx slot bitIndex => .LoadDropFlag (g idx) slot bitIndex
  | x => x

def MIRTerminator.mapFlags : MIRTerminator V → MIRTerminator V
  | .Drop kind slot flagIdx target unwind => .Drop kind slot (mapFlag g flagIdx) target unwind
  | .Switch val targets validFlag invalidTarget =>
    .Switch val targets (mapFlag g validFlag) invalidTarget
  | t => t

end MapFlags

/-! ## 6. Locals -/

def Wrapper.isField (w : Wrapper) : Bool := w.val.toNat % 4 == 1

def Wrapper.isIndex (w : Wrapper) : Bool := w.val.toNat % 4 == 3

def Wrapper.asIndex (w : Wrapper) : Nat := w.val.toNat / 4

/-- `newIndex`, which takes `MAX_ARG` for `~0u`. -/
def Wrapper.newIndex (idx : BitVec 32) : Wrapper :=
  ⟨BitVec.ofNat 32 ((if idx = NONE then MAX_ARG else idx.toNat) * 4 + 3)⟩

/-- `newLocal`, with its assertion. -/
def Storage.newLocal (idx : Nat) : Option (Storage V) :=
  if h : idx ≤ MAX_ARG then some (.Local idx h) else none

def Storage.asLocal : Storage V → Option Nat
  | .Local idx _ => some idx
  | _ => none

/-- The locals of an Index. -/
def Wrapper.locals (w : Wrapper) : List Nat := if w.isIndex then [w.asIndex] else []

def MIRLValue.locals (v : MIRLValue V) : List Nat :=
  v.root.asLocal.toList ++ v.wrappers.flatMap (·.locals)

/-! ## 7. What a visit leaves alone -/

theorem visitAll_get {α β : Type} {g : α → Option β} :
    ∀ {l : List α} {l' : List β}, visitAll g l = some l' →
    l'.length = l.length ∧ ∀ (i : Nat) (a : α), l[i]? = some a → ∃ a', g a = some a' ∧
      l'[i]? = some a'
  | [], _, h => by
    cases h
    exact ⟨rfl, fun i a ha => by cases ha⟩
  | b :: l, l', h => by
    obtain ⟨b', hb, hrest⟩ := Option.bind_eq_some_iff.1 h
    obtain ⟨rest, hl, rfl⟩ := Option.map_eq_some_iff.1 hrest
    obtain ⟨hlen, hget⟩ := visitAll_get hl
    refine ⟨congrArg (· + 1) hlen, fun i a ha => ?_⟩
    cases i with
    | zero =>
      cases ha
      exact ⟨b', hb, rfl⟩
    | succ i => exact hget i a ha

theorem visitAll_flatMap {α β : Type} {g : α → Option α} {f : α → List β}
    (hg : ∀ a a', g a = some a' → f a' = f a) : ∀ {l l' : List α}, visitAll g l = some l' →
      l'.flatMap f = l.flatMap f
  | [], _, h => by
    cases h
    rfl
  | b :: l, l', h => by
    obtain ⟨b', hb, hrest⟩ := Option.bind_eq_some_iff.1 h
    obtain ⟨rest, hl, rfl⟩ := Option.map_eq_some_iff.1 hrest
    rw [List.flatMap_cons, List.flatMap_cons, hg b b' hb, visitAll_flatMap hg hl]

section Targets

variable {f b : MIRLValue V → Option (MIRLValue V)}

theorem MIRAsmParam.targets_visit (p p' : MIRAsmParam V) (h : p.visit f b = some p') :
    p'.targets = p.targets := by
  cases p with
  | Reg dir spec input output =>
    obtain ⟨i, _, hi⟩ := Option.bind_eq_some_iff.1 h
    obtain ⟨o, _, rfl⟩ := Option.map_eq_some_iff.1 hi
    rfl
  | _ =>
    cases h
    rfl

theorem MIRTerminator.visit_keeps {t t' : MIRTerminator V} (h : t.visit f b = some t') :
    t'.targets = t.targets ∧ t'.flags = t.flags := by
  cases t with
  | Call retBlock unwind retVal fcn args source tracksCaller =>
    obtain ⟨c, _, h⟩ := Option.bind_eq_some_iff.1 h
    obtain ⟨a, _, h⟩ := Option.bind_eq_some_iff.1 h
    obtain ⟨r, _, rfl⟩ := Option.map_eq_some_iff.1 h
    exact ⟨rfl, rfl⟩
  | TailCall fcn args source tracksCaller =>
    obtain ⟨c, _, h⟩ := Option.bind_eq_some_iff.1 h
    obtain ⟨a, _, rfl⟩ := Option.map_eq_some_iff.1 h
    exact ⟨rfl, rfl⟩
  | Asm2 options lines params retBlock =>
    obtain ⟨params', hparams, rfl⟩ := Option.map_eq_some_iff.1 h
    refine ⟨?_, rfl⟩
    rw [targets, targets, visitAll_flatMap MIRAsmParam.targets_visit hparams]
  | If v bbTrue bbFalse =>
    obtain ⟨v', _, rfl⟩ := Option.map_eq_some_iff.1 h
    exact ⟨rfl, rfl⟩
  | Switch v targets validFlag invalidTarget =>
    obtain ⟨v', _, rfl⟩ := Option.map_eq_some_iff.1 h
    exact ⟨rfl, rfl⟩
  | SwitchValue v defTarget targets values =>
    obtain ⟨v', _, rfl⟩ := Option.map_eq_some_iff.1 h
    exact ⟨rfl, rfl⟩
  | Drop kind v flagIdx target unwind =>
    obtain ⟨v', _, rfl⟩ := Option.map_eq_some_iff.1 h
    exact ⟨rfl, rfl⟩
  | _ =>
    cases h
    exact ⟨rfl, rfl⟩

/-- Flags that stay flags leave the targets alone. -/
theorem MIRTerminator.targets_mapFlags {g : BitVec 32 → BitVec 32} {t : MIRTerminator V}
    (h : ∀ flag ∈ t.flags, g flag ≠ NONE) : (t.mapFlags g).targets = t.targets := by
  cases t with
  | Switch val targets validFlag invalidTarget =>
    by_cases hflag : validFlag = NONE
    · rw [mapFlags, mapFlag, if_neg (not_not.2 hflag)]
    · have hg : g validFlag ≠ NONE :=
        h validFlag (by rw [flags, if_pos hflag]; exact List.mem_cons_self)
      rw [mapFlags, mapFlag, if_pos hflag, MIRTerminator.targets, MIRTerminator.targets, if_pos hg,
        if_pos hflag]
  | _ => rfl

end Targets

end Trustme.Metadata
