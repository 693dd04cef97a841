import Asdl.Grammar.Basic

/-!
A grammar of English clauses. Sentences are declaratives, questions or imperatives, built from noun,
verb and prepositional phrases; the leaves are words and question particles.
-/
namespace Asdl.English

def sentence : Ty := ⟨"Sentence", .composite⟩

def nounPhrase : Ty := ⟨"NounPhrase", .composite⟩

def verbPhrase : Ty := ⟨"VerbPhrase", .composite⟩

def prepPhrase : Ty := ⟨"PrepPhrase", .composite⟩

def word : Ty := ⟨"word", .primitive⟩

def particle : Ty := ⟨"Particle", .primitive⟩

/-- All productions, phrase type by phrase type. The first makes sentences the root. -/
def productions : List Production := [
  ⟨sentence, "Declarative", [⟨"subj", nounPhrase, .single⟩, ⟨"pred", verbPhrase, .single⟩]⟩,
  ⟨sentence, "Question", [⟨"subj", nounPhrase, .single⟩, ⟨"pred", verbPhrase, .single⟩,
    ⟨"qword", particle, .optional⟩]⟩,
  ⟨sentence, "Imperative", [⟨"pred", verbPhrase, .single⟩]⟩,
  ⟨nounPhrase, "Noun", [⟨"det", word, .optional⟩, ⟨"adj", word, .multiple⟩,
    ⟨"head", word, .single⟩]⟩,
  ⟨nounPhrase, "Pronoun", [⟨"head", word, .single⟩]⟩,
  ⟨nounPhrase, "Coordinated", [⟨"conjuncts", nounPhrase, .multiple⟩, ⟨"conj", word, .single⟩]⟩,
  ⟨verbPhrase, "Intransitive", [⟨"verb", word, .single⟩, ⟨"mods", prepPhrase, .multiple⟩]⟩,
  ⟨verbPhrase, "Transitive", [⟨"verb", word, .single⟩, ⟨"obj", nounPhrase, .single⟩,
    ⟨"mods", prepPhrase, .multiple⟩]⟩,
  ⟨verbPhrase, "Copular", [⟨"verb", word, .single⟩, ⟨"complement", word, .single⟩]⟩,
  ⟨prepPhrase, "Prep", [⟨"prep", word, .single⟩, ⟨"obj", nounPhrase, .single⟩]⟩]

def grammar : Result Grammar := Grammar.ofProductions productions

end Asdl.English
