import TreeEdit.Text.Blank
/-!
# Languages

The languages whose source texts can be edited, and the names they go by. A
name is matched without the blanks around it and without regard to ASCII case.
-/

namespace TreeEdit

inductive Language where
  | bash | c | cpp | cSharp | css | elixir | go | haskell | hcl
  | html | java | javaScript | json | kotlin | lua | nix | php | python
  | ruby | rust | scala | solidity | swift | tsx | typeScript | yaml
deriving DecidableEq, Repr

namespace Language

/-- Every language, in listing order. -/
def all : List Language :=
  [.bash, .c, .cpp, .cSharp, .css, .elixir, .go, .haskell, .hcl, .html,
    .java, .javaScript, .json, .kotlin, .lua, .nix, .php, .python, .ruby,
    .rust, .scala, .solidity, .swift, .tsx, .typeScript, .yaml]

/-- The name a language is listed under. -/
def title : Language → String
  | .bash => "Bash"
  | .c => "C"
  | .cpp => "Cpp"
  | .cSharp => "CSharp"
  | .css => "Css"
  | .elixir => "Elixir"
  | .go => "Go"
  | .haskell => "Haskell"
  | .hcl => "Hcl"
  | .html => "Html"
  | .java => "Java"
  | .javaScript => "JavaScript"
  | .json => "Json"
  | .kotlin => "Kotlin"
  | .lua => "Lua"
  | .nix => "Nix"
  | .php => "Php"
  | .python => "Python"
  | .ruby => "Ruby"
  | .rust => "Rust"
  | .scala => "Scala"
  | .solidity => "Solidity"
  | .swift => "Swift"
  | .tsx => "Tsx"
  | .typeScript => "TypeScript"
  | .yaml => "Yaml"

/-- The names that a language can be asked for by. -/
def names : Language → List String
  | .bash => ["bash"]
  | .c => ["c"]
  | .cpp => ["cc", "c++", "cpp", "cxx"]
  | .cSharp => ["cs", "csharp"]
  | .css => ["css"]
  | .elixir => ["ex", "elixir"]
  | .go => ["go", "golang"]
  | .haskell => ["hs", "haskell"]
  | .hcl => ["hcl"]
  | .html => ["html"]
  | .java => ["java"]
  | .javaScript => ["javascript", "js", "jsx"]
  | .json => ["json"]
  | .kotlin => ["kotlin", "kt"]
  | .lua => ["lua"]
  | .nix => ["nix"]
  | .php => ["php"]
  | .python => ["py", "python"]
  | .ruby => ["rb", "ruby"]
  | .rust => ["rs", "rust"]
  | .scala => ["scala"]
  | .solidity => ["sol", "solidity"]
  | .swift => ["swift"]
  | .tsx => ["tsx"]
  | .typeScript => ["ts", "typescript"]
  | .yaml => ["yaml", "yml"]

/-- The language of that name; blanks around it and the case of letters do not count. -/
def ofName? (name : Text) : Option Language :=
  let wanted := name.trim.map Char.toLower
  all.find? fun l => l.names.any fun n => n.toList == wanted

end Language

end TreeEdit
