/-!
What a run is told to do: the defaults, the options of a command line and the environment variables.
-/

namespace CommentSweep

namespace Defaults

def version : String := "1.2.0"

def excludeDirs : List String :=
  ["node_modules", ".git", "dist", "build", "coverage", ".vscode", ".idea"]

def excludeFiles : List String :=
  ["package-lock.json", "*.log", "*.min.js", "*.min.css", "*.map"]

def extensions : List String :=
  ["js", "jsx", "ts", "tsx", "mjs", "cjs", "css", "scss", "less", "html", "vue", "svelte", "json",
   "md", "yaml", "yml", "py", "java", "cs", "php", "rb", "go", "swift", "kt"]

def ignoreFile : String := ".gitignore"

end Defaults

structure Options where
  /-- The directory to work on; nothing if the separator was given for it. -/
  dir? : Option String := some "."
  excludeDirs : List String := Defaults.excludeDirs
  excludeFiles : List String := Defaults.excludeFiles
  extensions : List String := Defaults.extensions
  useIgnoreFile : Bool := true
  dryRun : Bool := false
  verbose : Bool := false
  jsonLogs : Bool := false
  report : Bool := false
  deriving DecidableEq, Repr

structure Environment where
  jsonLogs : Bool := false
  debugLogs : Bool := false
  passErrors : Bool := false
  version? : Option String := none
  deriving DecidableEq, Repr

/-- Reads the variables. A switch is on if it is set to one. -/
def Environment.ofVariables (value? : String → Option String) : Environment :=
  let isOn (name : String) : Bool := value? name == some "1"
  { jsonLogs := isOn "DECOMMENT_JSON_LOGS"
    debugLogs := isOn "DECOMMENT_DEBUG"
    passErrors := isOn "DEBUG"
    version? := value? "DECOMMENT_VERSION" }

end CommentSweep
