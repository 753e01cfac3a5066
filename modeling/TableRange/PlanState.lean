import Mathlib.Logic.Function.Basic
import TableRange.Lib.History
import TableRange.MiniPg

/-!
# The per-plan state

`src/prune_hook.rs` keeps five thread-local maps, a depth and a flag.  The planner
hook clears the maps when the outermost invocation begins and when it ends; the
pathlist hook fills them, at whatever depth it runs.  The `FmgrInfo` structures
that `FMGR_MEMO` points to live in the memory context of the invocation that asked
for them first, and a nested invocation's context goes before the outermost one
has ended.

`PlanStep` is the machine of the two hooks, with planner invocations nested to any
depth and the memory contexts freed in between.  `planState_sound_iff` says which
of its runs never hand out a pointer into a freed context.  The maps are empty
outside of planning in every run.
-/

namespace TableRange

open Lib.History

variable {D : Type} {pg : Pg D}

/-! ## The thread-local state -/

/-- The identity of a memory context.  A context that has been freed does not
come back. -/
abbrev MemoryContext := Nat

/-- A pointer to a palloc'ed `FmgrInfo`: the procedure that it is for and the
context that it lies in. -/
structure FmgrInfo where
  fnOid : Oid
  mcxt : MemoryContext
deriving DecidableEq, Repr

/-- A `HashMap` is the function that looks a key up in it. -/
structure PlanLocals where
  cache : Oid → Option (List ColSummary)
  amOid : Option Oid
  planDepth : Nat
  inHook : Bool
  fmgrMemo : Oid → Option FmgrInfo
  inputInfoMemo : Oid → Option (Oid × Oid)
  /-- Keyed by the operator and whether the column is its right operand. -/
  opMemo : Oid × Bool → Option (Option CompareOp)

namespace PlanLocals

/-- What a thread starts with. -/
def initial : PlanLocals where
  cache _ := none
  amOid := none
  planDepth := 0
  inHook := false
  fmgrMemo _ := none
  inputInfoMemo _ := none
  opMemo _ := none

def clearCache (l : PlanLocals) : PlanLocals :=
  { l with
    cache := fun _ => none
    amOid := none
    fmgrMemo := fun _ => none
    inputInfoMemo := fun _ => none
    opMemo := fun _ => none }

/-- `table_range_planner_hook` up to the call of the next planner. -/
def enterPlanner (l : PlanLocals) : PlanLocals :=
  let outermost := l.planDepth = 0
  let l := { l with planDepth := l.planDepth + 1 }
  if outermost then l.clearCache else l

/-- The `finally` of `table_range_planner_hook`, which runs after an error too. -/
def leavePlanner (l : PlanLocals) : PlanLocals :=
  let l := { l with planDepth := l.planDepth - 1 }
  if l.planDepth = 0 then l.clearCache else l

/-- `mcxt` is the current memory context, the one that `palloc0` allocates in. -/
def fmgrCached (procOid : Oid) (mcxt : MemoryContext) (l : PlanLocals) : FmgrInfo × PlanLocals :=
  match l.fmgrMemo procOid with
  | some p => (p, l)
  | none =>
      let p : FmgrInfo := ⟨procOid, mcxt⟩
      (p, { l with fmgrMemo := Function.update l.fmgrMemo procOid (some p) })

/-- The lookup of `parse_cached`. -/
def inputInfoCached (pg : Pg D) (typ : Oid) (l : PlanLocals) : (Oid × Oid) × PlanLocals :=
  match l.inputInfoMemo typ with
  | some info => (info, l)
  | none =>
      let info := pg.getTypeInputInfo typ
      (info, { l with inputInfoMemo := Function.update l.inputInfoMemo typ (some info) })

def compareOpCached (pg : Pg D) (opno : Oid) (commuted : Bool) (l : PlanLocals) :
    Option CompareOp × PlanLocals :=
  match l.opMemo (opno, commuted) with
  | some op => (op, l)
  | none =>
      let op := compareOp pg opno commuted
      (op, { l with opMemo := Function.update l.opMemo (opno, commuted) (some op) })

/-- `found` is the answer of `get_am_oid`. -/
def tableRangeAmOid (found : Oid) (l : PlanLocals) : Oid × PlanLocals :=
  match l.amOid with
  | some oid => (oid, l)
  | none => (found, { l with amOid := some found })

/-- `read` is what `read_index_summary` returns. -/
def loadSummary (relid : Oid) (read : List ColSummary) (l : PlanLocals) : PlanLocals :=
  match l.cache relid with
  | some _ => l
  | none => { l with cache := Function.update l.cache relid (some read) }

/-- The five maps are empty. -/
structure Cleared (l : PlanLocals) : Prop where
  cache : ∀ relid, l.cache relid = none
  amOid : l.amOid = none
  fmgrMemo : ∀ procOid, l.fmgrMemo procOid = none
  inputInfoMemo : ∀ typ, l.inputInfoMemo typ = none
  opMemo : ∀ key, l.opMemo key = none

theorem clearCache_cleared (l : PlanLocals) : l.clearCache.Cleared :=
  ⟨fun _ => rfl, rfl, fun _ => rfl, fun _ => rfl, fun _ => rfl⟩

end PlanLocals

/-! ## The machine -/

/-- A planner invocation that has not returned. -/
structure Invocation where
  mcxt : MemoryContext
  /-- Its pathlist hook is evaluating a relation. -/
  evaluating : Bool
deriving DecidableEq, Repr

structure PlanState where
  locals : PlanLocals
  /-- The innermost invocation comes first. -/
  running : List Invocation
  freed : List MemoryContext

def PlanState.initial : PlanState := ⟨.initial, [], []⟩

inductive PlanEvent
  /-- The planner hook is called. -/
  | plannerBegin (mcxt : MemoryContext)
  /-- The planner hook returns or passes an error on. -/
  | plannerEnd (error : Bool)
  /-- The pathlist hook is called; `eligible` says whether pruning is enabled and
  the relation is one to look at. -/
  | pathlistBegin (eligible : Bool)
  /-- `evaluate_relation` returns or its error is caught. -/
  | pathlistEnd (error : Bool)
  | fmgrCached (procOid : Oid)
  | inputInfoCached (typ : Oid)
  | compareOpCached (opno : Oid) (commuted : Bool)
  | tableRangeAmOid (found : Oid)
  | loadSummary (relid : Oid) (read : List ColSummary)
  /-- A memory context goes, which no running invocation uses. -/
  | free (mcxt : MemoryContext)

/-- A step of `evaluate_relation`, run by the innermost invocation. -/
inductive EvalStep (pg : Pg D) (mcxt : MemoryContext) (l : PlanLocals) :
    PlanEvent → PlanLocals → Prop
  | fmgrCached (procOid : Oid) :
      EvalStep pg mcxt l (.fmgrCached procOid) (l.fmgrCached procOid mcxt).2
  | inputInfoCached (typ : Oid) :
      EvalStep pg mcxt l (.inputInfoCached typ) (l.inputInfoCached pg typ).2
  | compareOpCached (opno : Oid) (commuted : Bool) :
      EvalStep pg mcxt l (.compareOpCached opno commuted) (l.compareOpCached pg opno commuted).2
  | tableRangeAmOid (found : Oid) :
      EvalStep pg mcxt l (.tableRangeAmOid found) (l.tableRangeAmOid found).2
  | loadSummary (relid : Oid) (read : List ColSummary) :
      EvalStep pg mcxt l (.loadSummary relid read) (l.loadSummary relid read)

/-- One step of the backend.  A planner can be called at any moment, also from
within `evaluate_relation`. -/
inductive PlanStep (pg : Pg D) : PlanState → PlanEvent → PlanState → Prop
  | plannerBegin {l : PlanLocals} {running : List Invocation} {freed : List MemoryContext}
      {mcxt : MemoryContext} (halive : mcxt ∉ freed) :
      PlanStep pg ⟨l, running, freed⟩ (.plannerBegin mcxt)
        ⟨l.enterPlanner, ⟨mcxt, false⟩ :: running, freed⟩
  | plannerEnd (l : PlanLocals) (mcxt : MemoryContext) (running : List Invocation)
      (freed : List MemoryContext) (error : Bool) :
      PlanStep pg ⟨l, ⟨mcxt, false⟩ :: running, freed⟩ (.plannerEnd error)
        ⟨l.leavePlanner, running, freed⟩
  | pathlistSkip {s : PlanState} {eligible : Bool} (hrunning : s.running ≠ [])
      (h : s.locals.inHook = true ∨ eligible = false) : PlanStep pg s (.pathlistBegin eligible) s
  | pathlistBegin {l : PlanLocals} {mcxt : MemoryContext} {running : List Invocation}
      {freed : List MemoryContext} (h : l.inHook = false) :
      PlanStep pg ⟨l, ⟨mcxt, false⟩ :: running, freed⟩ (.pathlistBegin true)
        ⟨{ l with inHook := true }, ⟨mcxt, true⟩ :: running, freed⟩
  | pathlistEnd (l : PlanLocals) (mcxt : MemoryContext) (running : List Invocation)
      (freed : List MemoryContext) (error : Bool) :
      PlanStep pg ⟨l, ⟨mcxt, true⟩ :: running, freed⟩ (.pathlistEnd error)
        ⟨{ l with inHook := false }, ⟨mcxt, false⟩ :: running, freed⟩
  | eval {l l' : PlanLocals} {mcxt : MemoryContext} {running : List Invocation}
      {freed : List MemoryContext} {e : PlanEvent} (h : EvalStep pg mcxt l e l') :
      PlanStep pg ⟨l, ⟨mcxt, true⟩ :: running, freed⟩ e ⟨l', ⟨mcxt, true⟩ :: running, freed⟩
  | free {l : PlanLocals} {running : List Invocation} {freed : List MemoryContext}
      {mcxt : MemoryContext} (h : mcxt ∉ running.map Invocation.mcxt) :
      PlanStep pg ⟨l, running, freed⟩ (.free mcxt) ⟨l, running, mcxt :: freed⟩

/-- A history of the backend, the latest event first, and the state it leads to. -/
abbrev PlanRun (pg : Pg D) : List PlanEvent → PlanState → Prop := Run (PlanStep pg) .initial

/-! ## What the history says -/

/-- The memory contexts of the running invocations, innermost first. -/
def runningContexts : List PlanEvent → List MemoryContext
  | [] => []
  | .plannerBegin mcxt :: es => mcxt :: runningContexts es
  | .plannerEnd _ :: es => (runningContexts es).tail
  | _ :: es => runningContexts es

/-- The context of the invocation that was the first to ask for the procedure,
within the outermost invocation that is running. -/
def firstAsked : List PlanEvent → Oid → Option MemoryContext
  | [], _ => none
  | .plannerBegin _ :: es, procOid =>
      if runningContexts es = [] then none else firstAsked es procOid
  | .plannerEnd _ :: es, procOid =>
      if (runningContexts es).tail = [] then none else firstAsked es procOid
  | .fmgrCached asked :: es, procOid =>
      if procOid = asked then (firstAsked es procOid).or (runningContexts es).head?
      else firstAsked es procOid
  | _ :: es, procOid => firstAsked es procOid

/-- The pointers that `fmgr_cached` returns are into living contexts. -/
def PointersAlive (pg : Pg D) (es : List PlanEvent) : Prop :=
  ∀ procOid past, .fmgrCached procOid :: past <:+ es → ∀ s, PlanRun pg past s →
    ∀ inv ∈ s.running.head?, (s.locals.fmgrCached procOid inv.mcxt).1.mcxt ∉ s.freed

/-- Outside of planning the maps are empty and the flag is down. -/
def ClearOutside (pg : Pg D) (es : List PlanEvent) : Prop :=
  ∀ past, past <:+ es → ∀ s, PlanRun pg past s → s.locals.planDepth = 0 →
    s.locals.Cleared ∧ s.locals.inHook = false

/-- When a procedure is asked for again, the context of the invocation that asked
first has not been freed. -/
def AskedAlive (es : List PlanEvent) : Prop :=
  ∀ procOid past mcxt, .fmgrCached procOid :: past <:+ es → firstAsked past procOid = some mcxt →
    .free mcxt ∉ past

/-- How the state follows from the history. -/
structure Tracks (es : List PlanEvent) (s : PlanState) : Prop where
  depth : s.locals.planDepth = s.running.length
  contexts : s.running.map Invocation.mcxt = runningContexts es
  /-- At most one pathlist hook is evaluating. -/
  inHook : s.running.countP Invocation.evaluating = s.locals.inHook.toNat
  fmgrMemo : ∀ procOid, s.locals.fmgrMemo procOid =
    (firstAsked es procOid).map (FmgrInfo.mk procOid)
  cleared : s.running = [] → s.locals.Cleared
  freed : ∀ mcxt, mcxt ∈ s.freed ↔ .free mcxt ∈ es
  alive : ∀ inv ∈ s.running, inv.mcxt ∉ s.freed

theorem Tracks.initial : Tracks [] .initial where
  depth := rfl
  contexts := rfl
  inHook := rfl
  fmgrMemo _ := rfl
  cleared _ := ⟨fun _ => rfl, rfl, fun _ => rfl, fun _ => rfl, fun _ => rfl⟩
  freed _ := by simp [PlanState.initial]
  alive := nofun

/-- The step of a planner call. -/
theorem Tracks.plannerBegin {es : List PlanEvent} {l : PlanLocals} {running : List Invocation}
    {freed : List MemoryContext} {mcxt : MemoryContext} (h : Tracks es ⟨l, running, freed⟩)
    (halive : mcxt ∉ freed) :
    Tracks (.plannerBegin mcxt :: es) ⟨l.enterPlanner, ⟨mcxt, false⟩ :: running, freed⟩ := by
  obtain ⟨hdepth, hcontexts, hinHook, hmemo, hcleared, hfreed, hrunning⟩ := h
  have houtermost : l.planDepth = 0 ↔ runningContexts es = [] := by
    rw [← hcontexts, List.map_eq_nil_iff, hdepth, List.length_eq_zero_iff]
  refine ⟨?_, ?_, ?_, fun procOid => ?_, nofun, ?_, ?_⟩
  · simp only [PlanLocals.enterPlanner]
    split <;> simpa [PlanLocals.clearCache] using hdepth
  · simpa [runningContexts] using hcontexts
  · simp only [PlanLocals.enterPlanner]
    split <;> simpa [PlanLocals.clearCache] using hinHook
  · simp only [PlanLocals.enterPlanner, firstAsked, ← houtermost]
    split
    · rfl
    · exact hmemo procOid
  · simpa using hfreed
  · rintro inv (- | ⟨-, hinv⟩)
    · exact halive
    · exact hrunning inv hinv

/-- The step of a planner return. -/
theorem Tracks.plannerEnd {es : List PlanEvent} {l : PlanLocals} {running : List Invocation}
    {freed : List MemoryContext} {mcxt : MemoryContext} {error : Bool}
    (h : Tracks es ⟨l, ⟨mcxt, false⟩ :: running, freed⟩) :
    Tracks (.plannerEnd error :: es) ⟨l.leavePlanner, running, freed⟩ := by
  obtain ⟨hdepth, hcontexts, hinHook, hmemo, -, hfreed, hrunning⟩ := h
  have hdepth : l.planDepth - 1 = running.length := by simp [show l.planDepth = _ from hdepth]
  have htail : (runningContexts es).tail = running.map Invocation.mcxt := by simp [← hcontexts]
  have hlast : running = [] ↔ l.planDepth - 1 = 0 := by rw [hdepth, List.length_eq_zero_iff]
  refine ⟨?_, htail.symm, ?_, fun procOid => ?_, fun hnone => ?_, ?_, fun inv hinv => ?_⟩
  · simp only [PlanLocals.leavePlanner]
    split <;> exact hdepth
  · simp only [PlanLocals.leavePlanner]
    split <;> simpa [PlanLocals.clearCache] using hinHook
  · simp only [PlanLocals.leavePlanner, firstAsked, htail, List.map_eq_nil_iff, hlast]
    split
    · rfl
    · exact hmemo procOid
  · simp only [PlanLocals.leavePlanner]
    rw [if_pos (hlast.mp hnone)]
    exact PlanLocals.clearCache_cleared _
  · simpa using hfreed
  · exact hrunning inv (List.mem_cons_of_mem _ hinv)

/-- `evaluate_relation` leaves the depth and the flag alone. -/
theorem EvalStep.frame {mcxt : MemoryContext} {l l' : PlanLocals} {e : PlanEvent}
    (h : EvalStep pg mcxt l e l') : l'.planDepth = l.planDepth ∧ l'.inHook = l.inHook := by
  cases h with
  | fmgrCached procOid =>
      unfold PlanLocals.fmgrCached
      split <;> exact ⟨rfl, rfl⟩
  | inputInfoCached typ =>
      unfold PlanLocals.inputInfoCached
      split <;> exact ⟨rfl, rfl⟩
  | compareOpCached opno commuted =>
      unfold PlanLocals.compareOpCached
      split <;> exact ⟨rfl, rfl⟩
  | tableRangeAmOid found =>
      unfold PlanLocals.tableRangeAmOid
      split <;> exact ⟨rfl, rfl⟩
  | loadSummary relid read =>
      unfold PlanLocals.loadSummary
      split <;> exact ⟨rfl, rfl⟩

/-- It starts no planner and frees nothing. -/
theorem EvalStep.event {mcxt : MemoryContext} {l l' : PlanLocals} {e : PlanEvent}
    (h : EvalStep pg mcxt l e l') :
    (∀ es, runningContexts (e :: es) = runningContexts es) ∧ ∀ freed, e ≠ .free freed := by
  cases h <;> exact ⟨fun _ => rfl, nofun⟩

/-- `FMGR_MEMO` remembers who asked first. -/
theorem EvalStep.fmgrMemo {mcxt : MemoryContext} {l l' : PlanLocals} {e : PlanEvent}
    (h : EvalStep pg mcxt l e l') {es : List PlanEvent}
    (hcurrent : (runningContexts es).head? = some mcxt)
    (hmemo : ∀ procOid, l.fmgrMemo procOid = (firstAsked es procOid).map (FmgrInfo.mk procOid))
    (procOid : Oid) :
    l'.fmgrMemo procOid = (firstAsked (e :: es) procOid).map (FmgrInfo.mk procOid) := by
  cases h with
  | fmgrCached asked =>
      simp only [PlanLocals.fmgrCached, firstAsked, hcurrent]
      by_cases hasked : procOid = asked
      · subst hasked
        rw [if_pos rfl]
        cases hfirst : firstAsked es procOid with
        | none => simp [hmemo, hfirst]
        | some m => simp [hmemo, hfirst]
      · rw [if_neg hasked, ← hmemo]
        split
        · rfl
        · exact Function.update_of_ne hasked _ _
  | inputInfoCached typ =>
      simp only [PlanLocals.inputInfoCached, firstAsked]
      split <;> exact hmemo procOid
  | compareOpCached opno commuted =>
      simp only [PlanLocals.compareOpCached, firstAsked]
      split <;> exact hmemo procOid
  | tableRangeAmOid found =>
      simp only [PlanLocals.tableRangeAmOid, firstAsked]
      split <;> exact hmemo procOid
  | loadSummary relid read =>
      simp only [PlanLocals.loadSummary, firstAsked]
      split <;> exact hmemo procOid

theorem Tracks.eval {es : List PlanEvent} {l l' : PlanLocals} {running : List Invocation}
    {freed : List MemoryContext} {mcxt : MemoryContext} {e : PlanEvent}
    (h : Tracks es ⟨l, ⟨mcxt, true⟩ :: running, freed⟩) (hstep : EvalStep pg mcxt l e l') :
    Tracks (e :: es) ⟨l', ⟨mcxt, true⟩ :: running, freed⟩ := by
  obtain ⟨hdepth, hcontexts, hinHook, hmemo, -, hfreed, hrunning⟩ := h
  obtain ⟨hdepth', hinHook'⟩ := hstep.frame
  obtain ⟨hcontexts', hnofree⟩ := hstep.event
  have hcurrent : (runningContexts es).head? = some mcxt := by simp [← hcontexts]
  refine ⟨hdepth'.trans hdepth, hcontexts.trans (hcontexts' es).symm, hinHook' ▸ hinHook,
    hstep.fmgrMemo hcurrent hmemo, nofun, fun m => ?_, hrunning⟩
  rw [hfreed, List.mem_cons, or_iff_right (hnofree m).symm]

/-- Every step. -/
theorem Tracks.step {es : List PlanEvent} {s s' : PlanState} {e : PlanEvent} (h : Tracks es s)
    (hstep : PlanStep pg s e s') : Tracks (e :: es) s' := by
  cases hstep with
  | plannerBegin halive => exact h.plannerBegin halive
  | plannerEnd l mcxt running freed error => exact h.plannerEnd
  | pathlistSkip hrunning hskip =>
      exact ⟨h.depth, h.contexts, h.inHook, h.fmgrMemo, h.cleared, by simpa using h.freed, h.alive⟩
  | pathlistBegin hinHook =>
      have hnone := h.inHook
      simp only [hinHook, List.countP_cons] at hnone
      refine ⟨h.depth, h.contexts, ?_, h.fmgrMemo, nofun, by simpa using h.freed, ?_⟩
      · simpa using hnone
      · simpa using h.alive
  | pathlistEnd l mcxt running freed error =>
      have hone := h.inHook
      have hle := Bool.toNat_le l.inHook
      simp only [List.countP_cons, if_true] at hone
      refine ⟨h.depth, h.contexts, ?_, h.fmgrMemo, nofun, by simpa using h.freed, ?_⟩
      · simp only [List.countP_cons, Bool.toNat_false, Bool.false_eq_true, if_false]
        omega
      · simpa using h.alive
  | eval heval => exact h.eval heval
  | free hunused =>
      rename_i l running freed mcxt
      refine ⟨h.depth, h.contexts, h.inHook, h.fmgrMemo, h.cleared, fun m => ?_, fun inv hinv => ?_⟩
      · rw [List.mem_cons, List.mem_cons, h.freed, PlanEvent.free.injEq]
      · refine List.not_mem_cons_of_ne_of_not_mem (fun he => hunused ?_) (h.alive inv hinv)
        exact List.mem_map.mpr ⟨inv, hinv, he⟩

theorem PlanRun.tracks {es : List PlanEvent} {s : PlanState} (h : PlanRun pg es s) :
    Tracks es s := by
  induction h with
  | nil => exact .initial
  | cons _ hstep ih => exact ih.step hstep

/-! ## The pointers -/

/-- The pointer that `fmgr_cached` returns is into the context of whoever asked
first. -/
theorem Tracks.fmgrCached_mcxt {es : List PlanEvent} {s : PlanState} (h : Tracks es s)
    (procOid : Oid) (mcxt : MemoryContext) :
    (s.locals.fmgrCached procOid mcxt).1.mcxt = (firstAsked es procOid).getD mcxt := by
  unfold PlanLocals.fmgrCached
  rw [h.fmgrMemo]
  cases firstAsked es procOid <;> rfl

theorem PlanRun.clearOutside {es : List PlanEvent} {s : PlanState} (h : PlanRun pg es s)
    (hdepth : s.locals.planDepth = 0) : s.locals.Cleared ∧ s.locals.inHook = false := by
  have htracks := h.tracks
  have hnone : s.running = [] := by rw [← List.length_eq_zero_iff, ← htracks.depth, hdepth]
  refine ⟨htracks.cleared hnone, ?_⟩
  have hinHook := htracks.inHook
  rw [hnone] at hinHook
  exact Bool.toNat_eq_zero.mp hinHook.symm

/-- Exactly the runs in which no procedure is asked for again after the context
of the first to ask has been freed are without dangling pointers.  The maps and
the flag are reset in all runs. -/
theorem planState_sound_iff {es : List PlanEvent} {s : PlanState} (h : PlanRun pg es s) :
    PointersAlive pg es ∧ ClearOutside pg es ↔ AskedAlive es := by
  constructor
  · rintro ⟨halive, -⟩ procOid past mcxt hcall hfirst hfree
    obtain ⟨s₂, hs₂⟩ := h.past hcall
    obtain ⟨s₁, hs₁, hstep⟩ := hs₂.of_cons
    have htracks := PlanRun.tracks hs₁
    cases hstep with
    | eval heval =>
        refine halive procOid past hcall _ hs₁ _ rfl ?_
        rw [htracks.fmgrCached_mcxt, hfirst, htracks.freed]
        exact hfree
  · intro hasked
    refine ⟨fun procOid past hcall s₁ hs₁ inv hinv => ?_, fun past _ s₁ hs₁ =>
      PlanRun.clearOutside hs₁⟩
    have htracks := PlanRun.tracks hs₁
    rw [htracks.fmgrCached_mcxt]
    cases hfirst : firstAsked past procOid with
    | none => exact htracks.alive inv (List.mem_of_mem_head? hinv)
    | some mcxt =>
        rw [Option.getD_some, htracks.freed]
        exact hasked procOid past mcxt hcall hfirst

section Mini

/-- `btint4cmp`. -/
def btint4cmp : Oid := 351

/-- A planner call that folds a function, which plans a query of its own, after it
has compared integers itself.  The inner query compares integers too. -/
def outerFirst : List PlanEvent :=
  [.free 0, .plannerEnd false, .free 1, .plannerEnd false, .pathlistEnd false,
    .fmgrCached btint4cmp, .pathlistBegin true, .plannerBegin 1, .pathlistEnd false,
    .fmgrCached btint4cmp, .pathlistBegin true, .plannerBegin 0]

theorem planState_sound_iff_outerFirst :
    ∃ s, PlanRun (Mini.pg fun _ _ n => n) outerFirst s ∧
      (PointersAlive (Mini.pg fun _ _ n => n) outerFirst ∧
        ClearOutside (Mini.pg fun _ _ n => n) outerFirst ↔ AskedAlive outerFirst) := by
  have hrun : ∃ s, PlanRun (Mini.pg fun _ _ n => n) outerFirst s :=
    ⟨_, .cons (.cons (.cons (.cons (.cons (.cons (.cons (.cons (.cons (.cons (.cons (.cons .nil
      (.plannerBegin List.not_mem_nil)) (.pathlistBegin rfl)) (.eval (.fmgrCached _)))
      (.pathlistEnd _ _ _ _ _)) (.plannerBegin List.not_mem_nil)) (.pathlistBegin rfl))
      (.eval (.fmgrCached _))) (.pathlistEnd _ _ _ _ _)) (.plannerEnd _ _ _ _ _))
      (.free (by decide))) (.plannerEnd _ _ _ _ _)) (.free (by decide))⟩
  obtain ⟨s, hrun⟩ := hrun
  exact ⟨s, hrun, planState_sound_iff hrun⟩

/-- The inner query is the first to compare integers. -/
def innerFirst : List PlanEvent :=
  [.pathlistBegin true, .free 1, .plannerEnd false, .pathlistEnd false, .fmgrCached btint4cmp,
    .pathlistBegin true, .plannerBegin 1, .plannerBegin 0]

/-- The inner query is gone, and its context with it, when the outer invocation
asks for the procedure.  It gets the pointer into the freed context. -/
theorem not_pointersAlive_innerFirst :
    (∃ s, PlanRun (Mini.pg fun _ _ n => n) innerFirst s ∧ s.running = [⟨0, true⟩] ∧
      (s.locals.fmgrCached btint4cmp 0).1 = ⟨btint4cmp, 1⟩ ∧ s.freed = [1]) ∧
    ¬∀ es s, PlanRun (Mini.pg fun _ _ n => n) es s →
      PointersAlive (Mini.pg fun _ _ n => n) es ∧ ClearOutside (Mini.pg fun _ _ n => n) es := by
  have hrun : ∃ s, PlanRun (Mini.pg fun _ _ n => n) innerFirst s ∧ s.running = [⟨0, true⟩] ∧
      (s.locals.fmgrCached btint4cmp 0).1 = ⟨btint4cmp, 1⟩ ∧ s.freed = [1] :=
    ⟨_, .cons (.cons (.cons (.cons (.cons (.cons (.cons (.cons .nil
      (.plannerBegin List.not_mem_nil)) (.plannerBegin List.not_mem_nil)) (.pathlistBegin rfl))
      (.eval (.fmgrCached _))) (.pathlistEnd _ _ _ _ _)) (.plannerEnd _ _ _ _ _))
      (.free (by decide))) (.pathlistBegin rfl), rfl, rfl, rfl⟩
  refine ⟨hrun, fun hall => ?_⟩
  obtain ⟨s, hs, hrunning, hpointer, hfreed⟩ := hrun
  obtain ⟨hd, hs'⟩ : ∃ hd, PlanRun (Mini.pg fun _ _ n => n) (.fmgrCached btint4cmp :: innerFirst)
    hd := by
    obtain ⟨l, running, freed⟩ := s
    obtain rfl : running = [⟨0, true⟩] := hrunning
    exact ⟨_, .cons hs (.eval (.fmgrCached _))⟩
  refine (hall _ _ hs').1 btint4cmp innerFirst (List.suffix_refl _) s hs ⟨0, true⟩
    (by simp [hrunning]) ?_
  rw [hpointer, hfreed]
  exact List.mem_singleton.mpr rfl

end Mini

end TableRange
