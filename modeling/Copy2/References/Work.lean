import Copy2.References.Seen

/-! # Where the steps work

Entries are made, renamed, linked and unlinked by the tasks and jobs of names, by the drain
of a list, and by `processDir`, which makes its directory and prunes it before it opens it.
A directory of the destination is known by the source directory whose path it has. -/
namespace Copy2.References
open Lib HLink

set_option linter.unusedSectionVars false

variable {Name Dir : Type} [Fintype Name] [DecidableEq Name] [Fintype Dir] [DecidableEq Dir]
variable {L : Layout Name Dir} {s t : State Name Dir} {n : Name} {d e : Dir}

/-- A directory of the destination: the one with the path of a source directory, or another. -/
inductive Place (Dir : Type)
  | own (d : Dir)
  | other (k : ℕ)

/-- What every source directory is opened as, and the directories that are removed when the old
entry of a name is replaced. -/
structure Destination (Name Dir : Type) where
  opened : Dir → Place Dir
  old : Name → List (Place Dir)

/-- No path that the source has leads through a symbolic link of the destination. -/
structure Destination.Plain (D : Destination Name Dir) : Prop where
  opened : ∀ d, D.opened d = .own d
  old : ∀ n, ∀ p ∈ D.old n, ∃ k, p = .other k

/-- What `--sync` removes when its probe fails: an entry that the source does not have, one that
it has, `.` or `..`; or what stands in the buffer of a path after it has been freed. -/
inductive Pruned (Name Dir : Type)
  | extra
  | name (n : Name)
  | dir (c : Dir)
  | dot
  | dotDot
  | stale

inductive Step (Name Dir : Type)
  | act (a : Act Name Dir)
  | mkdir (d : Dir)
  | prune (d : Dir) (x : Pruned Name Dir)

namespace Layout
variable (L : Layout Name Dir) (D : Destination Name Dir) (s : State Name Dir)

/-- The directories at and below `d`. -/
inductive Below (d : Dir) : Dir → Prop
  | self : Below d d
  | child {c p : Dir} : L.parent c = some p → Below d p → Below d c

/-- Where the paths at and under the removed entry of `d` may lead. -/
def Under (d : Dir) : Pruned Name Dir → Place Dir → Prop
  | .extra, .own _ => False
  | .name _, .own _ => False
  | .dir c, .own e => L.parent c = some d ∧ L.Below c e
  | .dot, .own e => L.Below d e
  | _, _ => True

/-- The directories in which the operation of a name may make, rename, link or unlink an entry. -/
def OpWorks (p : Place Dir) : Op Name → Prop
  | .run n _ | .fail n _ =>
    match (s.names.name n).pc with
    | .relink | .transfer => p = D.opened (L.dir n)
    | .queued => p = D.opened (L.dir n) ∨ p ∈ D.old n
    | .drain => ∃ x, s.names.info (s.names.name n).loc.hinfoRef = some x ∧
        ∃ m ∈ x.links, p = D.opened (L.dir m)
    | _ => False
  | _ => False

def Works (p : Place Dir) : Step Name Dir → Prop
  | .act (.name op) => L.OpWorks D s p op
  | .act _ => False
  | .mkdir d => ∃ q, L.parent d = some q ∧ p = D.opened q
  | .prune d x => p = D.opened d ∨ (D.Plain → L.Under d x p)

def stepNext : Step Name Dir → Option (State Name Dir)
  | .act a => L.next s a
  | .mkdir d => if s.stopped = false ∧ s.pc d = .spawned then some s else none
  | .prune d _ => if s.stopped = false ∧ s.pc d = .spawned then some s else none

def steps : TransitionSystem (State Name Dir) (Step Name Dir) where
  init := L.system.init
  next := L.stepNext

end Layout

/-- No task, no job and no pending link holds the directory. -/
structure Unheld (L : Layout Name Dir) (s : State Name Dir) (d : Dir) : Prop where
  task : s.pc d ≠ .crawling
  tasks : ∀ c, L.parent c = some d → (s.pc c).busy = false
  jobs : ∀ n, L.dir n = d → s.task n = .running → (s.names.name n).pc.ended = true
  links : ∀ n, L.dir n = d →
    (s.names.name n).tally.dirReleased = (s.names.name n).tally.dirTaken

/-- The finish job of a directory comes last and once, as far as steps that meet `C` go on. -/
structure DotLast (L : Layout Name Dir) (D : Destination Name Dir)
    (C : State Name Dir → Step Name Dir → Prop) (s : State Name Dir) (d : Dir) : Prop where
  once : (s.fdrc d).queued + (s.fdrc d).finished ≤ 1
  unheld : 0 < (s.fdrc d).queued + (s.fdrc d).finished → Unheld L s d
  untouched : 0 < (s.fdrc d).queued + (s.fdrc d).finished → ∀ a t,
    L.stepNext s a = some t → C s a → ¬ L.Works D s (D.opened d) a
  closed : (s.fdrc d).closed = (s.fdrc d).finished
  ended : s.stopped = true → (s.fdrc d).closed = (s.pc d).seen.toNat

/-- No root ends unhandled while others wait for it, or are going to, and no list is drained
twice; no probe of `..` fails, and no removal uses a freed path; and the threads end with empty
queues. -/
def KeepsLast (L : Layout Name Dir) (s : State Name Dir) : Step Name Dir → Prop
  | .act .stop => s.queuesEmpty
  | .act a => KeepsRefs L s a
  | .mkdir _ => True
  | .prune _ x => x ≠ .dotDot ∧ x ≠ .stale

end Copy2.References
