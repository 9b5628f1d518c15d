import ConcreteSyntax.Language.Java
import ConcreteSyntax.Language.Json
import ConcreteSyntax.Language.Hcl
import ConcreteSyntax.Vocabulary

/-! # Registered languages

Every language has a name, under which it is looked up exactly, and a grammar over its own type of
rules. -/

namespace ConcreteSyntax

/-- The registered languages. -/
inductive Language where
  | java | json | hcl
deriving DecidableEq, Repr

namespace Language

def name : Language → String
  | java => "Java"
  | json => "Json"
  | hcl => "Hcl"

/-- All languages, in the order in which they are listed. -/
def all : List Language := [java, json, hcl]

/-- The language of a name; case matters. -/
def ofName? (name : String) : Option Language := all.find? (·.name = name)

def Rules : Language → Type
  | java => JavaRule
  | json => JsonRule
  | hcl => HclRule

instance : (l : Language) → DecidableEq l.Rules
  | java => inferInstanceAs (DecidableEq JavaRule)
  | json => inferInstanceAs (DecidableEq JsonRule)
  | hcl => inferInstanceAs (DecidableEq HclRule)

def grammar : (l : Language) → Grammar l.Rules
  | java => JavaRule.grammar
  | json => JsonRule.grammar
  | hcl => HclRule.grammar

/-- The names of a language's rules. -/
def vocabulary (l : Language) : Vocabulary l.Rules := ⟨l.grammar.name⟩

def extensions : Language → List String
  | java => ["java"]
  | json => ["json"]
  | hcl => ["tf", "hcl"]

/-- What the list of languages says about a language. -/
structure Entry where
  language : Language
  name : String
  startRule : String
  extensions : List String
  /-- Blanks and comments are tokens too, so the tokens' texts join to the source. -/
  retainsTrivia : Bool

def entry (l : Language) : Entry where
  language := l
  name := l.name
  startRule := l.grammar.name l.grammar.start
  extensions := l.extensions
  retainsTrivia := true

end Language

end ConcreteSyntax
