import CommentSweep.Strategy
import CommentSweep.Text
import CommentSweep.Text.Quoted

/-!
The registry of cleaners. A suffix has at most one cleaner, chosen by priority, and may have a
builder that makes its cleaner when the suffix is first looked up.
-/

namespace CommentSweep

structure Cleaner where
  name : String
  strip : Text → Text

inductive BuildError where
  | unknownStrategy (name : String)
  | failed
  deriving DecidableEq, Repr

def BuildError.message : BuildError → String
  | .unknownStrategy name => Text.quote name
  | .failed => "builder failed"

namespace Cleaner

def wrappedName : String := "cleaner"

/-- The cleaner of a strategy given by name. A cleaner without a name is called after its strategy.
-/
def make (strategy name : String) (wrapped : Bool) : Except BuildError Cleaner :=
  match Strategy.ofName? strategy with
  | none => .error (.unknownStrategy strategy)
  | some found =>
      let label := if wrapped then wrappedName else found.label
      .ok ⟨if name.isEmpty then label else name, found.strip⟩

def describe (cleaner : Cleaner) : String :=
  "LanguageCleaner(" ++ Text.quote cleaner.name ++ ")"

end Cleaner

/-- Makes a cleaner on demand. What it makes may depend on the keys whose builders have run before.
-/
structure Builder where
  build : (history : List String) → Except BuildError Cleaner
  note? : Option String := none

structure Ranked (α : Type) where
  item : α
  priority : Int

/-- The cleaners and the builders by suffix; no suffix occurs twice among either. -/
structure Registry where
  eager : List (String × Ranked Cleaner)
  pending : List (String × Ranked Builder)
  /-- The keys whose builders have run, the latest first. -/
  history : List String := []

namespace Registry

def empty : Registry := ⟨[], [], []⟩

def assign (key : String) (value : α) (table : List (String × α)) : List (String × α) :=
  (key, value) :: table.filter (·.1 != key)

def keyOf (suffix : String) : String :=
  Text.lowerString (if suffix.toList.head? == some '.' then suffix else "." ++ suffix)

/-- Binds a cleaner unless the suffix has one of higher priority. A builder for the suffix is
dropped either way. -/
def register (r : Registry) (suffix : String) (cleaner : Cleaner) (priority : Int) : Registry :=
  let key := keyOf suffix
  let replaces :=
    match r.eager.lookup key with
    | none => true
    | some old => decide (old.priority ≤ priority)
  { r with
    eager := if replaces then assign key ⟨cleaner, priority⟩ r.eager else r.eager
    pending := r.pending.filter (·.1 != key) }

def registerLazy (r : Registry) (suffix : String) (builder : Builder) (priority : Int) : Registry :=
  { r with pending := assign (keyOf suffix) ⟨builder, priority⟩ r.pending }

/-- What a look-up found, the builder that it ran if it ran one, and the registry after it. -/
structure Lookup where
  registry : Registry
  ran : Option Builder
  found : Except BuildError (Option Cleaner)

/-- Looks a suffix up as it is written, in any case. What a builder makes is registered; one that
fails stays where it is. -/
def lookup (r : Registry) (suffix : Option String) : Lookup :=
  let key := Text.lowerString (suffix.getD "")
  match r.eager.lookup key with
  | some entry => ⟨r, none, .ok (some entry.item)⟩
  | none =>
      match r.pending.lookup key with
      | none => ⟨r, none, .ok none⟩
      | some ranked =>
          let after := { r with history := key :: r.history }
          match ranked.item.build r.history with
          | .error e => ⟨after, some ranked.item, .error e⟩
          | .ok cleaner =>
              ⟨after.register key cleaner ranked.priority, some ranked.item, .ok (some cleaner)⟩

def eagerKeys (r : Registry) : List String :=
  Text.nameSet (r.eager.map (·.1))

def pendingKeys (r : Registry) : List String :=
  Text.nameSet (r.pending.map (·.1))

def suffixes (r : Registry) : List String :=
  Text.nameSet (r.eager.map (·.1) ++ r.pending.map (·.1))

/-- A cleaner for every known extension. Those of the script family are there from the start, the
others are built when they are needed. -/
def standard : Registry :=
  Strategy.byExtension.foldl
    (fun r (suffix, strategy) =>
      let cleaner : Cleaner := ⟨strategy.name, strategy.strip⟩
      match strategy with
      | .script => r.register suffix cleaner 0
      | _ => r.registerLazy suffix ⟨fun _ => .ok cleaner, none⟩ 0)
    empty

end Registry

structure Transformed where
  content : Text
  changed : Bool
  deriving DecidableEq, Repr

def Transformed.of (cleaner : Option Cleaner) (raw : Text) : Transformed :=
  match cleaner with
  | none => ⟨raw, false⟩
  | some cleaner =>
      let content := Text.collapse (cleaner.strip raw)
      ⟨content, content != raw⟩

def Registry.transform (r : Registry) (extension : Option String) (raw : Text) :
    Except BuildError Transformed × Registry :=
  let l := r.lookup extension
  (l.found.map fun cleaner => Transformed.of cleaner raw, l.registry)

end CommentSweep
