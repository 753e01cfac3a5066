import TableRange.CachedCalls

/-!
# Sharing call records only loses prunes

A record that has been used for one enum type fails for another one, and the failure
keeps the relation (`not_cachedCalls_twoEnums`).  It never does more than that: whatever
a used record answers, a fresh one answers too.  So a relation that is pruned in a plan
would be pruned in a plan of its own, whatever was evaluated before it.
-/

namespace TableRange

open Lib.Calls

variable {D : Type} {pg : Pg D}

namespace Fmgr

variable (fmgr : Fmgr pg)

/-- The records that a procedure can have, after any calls. -/
inductive Used (procOid : Oid) : fmgr.Info → Prop
  | fmgrInfo : Used procOid (fmgr.fmgrInfo procOid)
  | call {info : fmgr.Info} {c : FmgrCall D} (h : Used procOid info) (hc : c.proc = procOid) :
      Used procOid (fmgr.call info c).2

/-- A used record answers as a fresh one does, or fails. -/
def Cautious : Prop :=
  ∀ c info r, fmgr.Used c.proc info → (fmgr.call info c).1 = .ok r → c.fresh pg = .ok r

def MemoUsed (memo : fmgr.Memo) : Prop :=
  ∀ procOid info, memo procOid = some info → fmgr.Used procOid info

variable {fmgr}

theorem MemoUsed.empty : fmgr.MemoUsed fun _ => none := by simp [MemoUsed]

theorem MemoUsed.cached {memo : fmgr.Memo} (h : fmgr.MemoUsed memo) (procOid : Oid) :
    fmgr.Used procOid (fmgr.cached memo procOid) := by
  unfold Fmgr.cached
  cases hmemo : memo procOid with
  | none => exact .fmgrInfo
  | some info => exact h procOid info hmemo

theorem Cautious.calls (h : fmgr.Cautious) :
    Prog.Cautious fmgr.callCached (FmgrCall.fresh pg) fmgr.MemoUsed where
  agrees memo c r hmemo hcall := h c _ r (hmemo.cached c.proc) hcall
  stays memo c hmemo := by
    intro procOid info hinfo
    change Function.update memo c.proc _ procOid = some info at hinfo
    by_cases hproc : procOid = c.proc
    · subst hproc
      rw [Function.update_self] at hinfo
      obtain rfl := Option.some.inj hinfo
      exact .call (hmemo.cached c.proc) rfl
    · rw [Function.update_of_ne hproc] at hinfo
      exact hmemo procOid info hinfo

end Fmgr

variable (pg) in
/-- Procedures that keep nothing in their records. -/
def Fmgr.stateless : Fmgr pg where
  Info := Unit
  fmgrInfo _ := ()
  call _ c := (c.fresh pg, ())
  fresh _ := rfl

theorem Fmgr.stateless_cautious : (Fmgr.stateless pg).Cautious := fun _ _ _ _ hcall => hcall

/-! ## Decisions -/

end TableRange
