import Mathlib.Tactic.Tauto

/-!
# Call trees under a guard flag

Functions of a library set a thread-local flag while they run, so that the
hooks on the system calls that they make know not to enter the library again.
A call tree records what matters for the flag: the assignments to it, the
calls that the hooks see, and the functions that are entered.  Nothing in this
file refers to the modelled program.
-/

namespace ArmsTiering.GuardFlag

/-- A call tree, with the names of the functions and of the hooked calls. -/
inductive Code (Fn Sys : Type*)
  | skip
  | setFlag (value : Bool)
  | sys (call : Sys)
  | seq (first second : Code Fn Sys)
  | call (fn : Fn) (body : Code Fn Sys)

variable {Fn Sys : Type*}

def Code.block : List (Code Fn Sys) → Code Fn Sys
  | [] => .skip
  | code :: rest => .seq code (.block rest)

/-- The flag, and whether a running function has set it. -/
structure Context where
  flag : Bool
  inside : Bool
  deriving DecidableEq

/-- A hooked call, with the context in which it is made. -/
structure Event (Sys : Type*) where
  call : Sys
  context : Context
  deriving DecidableEq

/-- A function's return, with the flag at its entry and at its exit. -/
structure Return (Fn : Type*) where
  fn : Fn
  entry : Bool
  exit : Bool

structure Trace (Fn Sys : Type*) where
  context : Context
  events : List (Event Sys)
  returns : List (Return Fn)

def exec (context : Context) : Code Fn Sys → Trace Fn Sys
  | .skip => ⟨context, [], []⟩
  | .setFlag value => ⟨⟨value, context.inside || value⟩, [], []⟩
  | .sys call => ⟨context, [⟨call, context⟩], []⟩
  | .seq first second =>
      let early := exec context first
      let late := exec early.context second
      ⟨late.context, early.events ++ late.events, early.returns ++ late.returns⟩
  | .call fn body =>
      let inner := exec context body
      -- the function no longer runs, and the flag stays as it left it
      ⟨⟨inner.context.flag, context.inside⟩, inner.events,
        inner.returns ++ [⟨fn, context.flag, inner.context.flag⟩]⟩

/-- Every call below a function that has set the flag finds it set, and every
function returns with the flag that it found. -/
def Guarded (context : Context) (code : Code Fn Sys) : Prop :=
  (∀ event ∈ (exec context code).events,
    event.context.inside = true → event.context.flag = true) ∧
    ∀ ret ∈ (exec context code).returns, ret.exit = ret.entry

section Rules

variable (context : Context)

@[simp]
theorem guarded_skip : Guarded context (.skip : Code Fn Sys) ↔ True := by
  simp [Guarded, exec]

@[simp]
theorem guarded_setFlag (value : Bool) :
    Guarded context (.setFlag value : Code Fn Sys) ↔ True := by
  simp [Guarded, exec]

@[simp]
theorem guarded_sys (call : Sys) :
    Guarded context (.sys call : Code Fn Sys) ↔
      (context.inside = true → context.flag = true) := by
  simp [Guarded, exec]

theorem guarded_seq (first second : Code Fn Sys) :
    Guarded context (.seq first second) ↔
      Guarded context first ∧ Guarded (exec context first).context second := by
  simp only [Guarded, exec, List.mem_append, or_imp, forall_and]
  tauto

theorem guarded_call (fn : Fn) (body : Code Fn Sys) :
    Guarded context (.call fn body) ↔
      Guarded context body ∧ (exec context body).context.flag = context.flag := by
  simp only [Guarded, exec, List.mem_append, List.mem_singleton, or_imp, forall_and, forall_eq]
  tauto

@[simp]
theorem exec_skip : (exec context (.skip : Code Fn Sys)).context = context := rfl

@[simp]
theorem exec_setFlag (value : Bool) :
    (exec context (.setFlag value : Code Fn Sys)).context = ⟨value, context.inside || value⟩ := rfl

@[simp]
theorem exec_sys (call : Sys) : (exec context (.sys call : Code Fn Sys)).context = context := rfl

@[simp]
theorem exec_seq (first second : Code Fn Sys) :
    (exec context (.seq first second)).context =
      (exec (exec context first).context second).context := rfl

@[simp]
theorem exec_call (fn : Fn) (body : Code Fn Sys) :
    (exec context (.call fn body)).context =
      ⟨(exec context body).context.flag, context.inside⟩ := rfl

@[simp]
theorem guarded_block_nil : Guarded context (Code.block [] : Code Fn Sys) ↔ True :=
  guarded_skip context

@[simp]
theorem guarded_block_cons (code : Code Fn Sys) (rest : List (Code Fn Sys)) :
    Guarded context (Code.block (code :: rest)) ↔
      Guarded context code ∧ Guarded (exec context code).context (Code.block rest) :=
  guarded_seq context code (Code.block rest)

@[simp]
theorem exec_block_nil : (exec context (Code.block [] : Code Fn Sys)).context = context := rfl

@[simp]
theorem exec_block_cons (code : Code Fn Sys) (rest : List (Code Fn Sys)) :
    (exec context (Code.block (code :: rest))).context =
      (exec (exec context code).context (Code.block rest)).context := rfl

end Rules

/-- A list of pieces that keep the context is guarded when each of them is. -/
theorem guarded_block_of_kept {context : Context} {codes : List (Code Fn Sys)}
    (hkept : ∀ code ∈ codes, (exec context code).context = context) :
    (Guarded context (Code.block codes) ↔ ∀ code ∈ codes, Guarded context code) ∧
      (exec context (Code.block codes)).context = context := by
  induction codes with
  | nil => simp
  | cons code codes ih =>
      rw [List.forall_mem_cons] at hkept
      obtain ⟨hguarded, hcontext⟩ := ih hkept.2
      rw [guarded_block_cons, exec_block_cons, hkept.1, hguarded, List.forall_mem_cons]
      exact ⟨Iff.rfl, hcontext⟩

end ArmsTiering.GuardFlag
