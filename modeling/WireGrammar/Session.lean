import WireGrammar.Message

/-!
# Sessions

Memory, randomness and mutators that messages share. What one message teaches is there for the next.

* `Session.generate`, `Session.recognize`: the two directions.
* `Session.fork`: another session with the same memory and a random stream of its own.
-/

namespace WireGrammar

/-- The settings of a session. -/
structure SessionConfig where
  seed : Nat
  /-- How many choices mutators may make in one message. -/
  choiceBudget : Nat
  settings : Symbol.Settings
  deriving DecidableEq

/-- A session whose settings are those for which nothing else is said. -/
def SessionConfig.ofSeed (seed : Nat) : SessionConfig where
  seed
  choiceBudget := Mutators.defaultBudget
  settings := { maxBytes := GenerationLimits.defaultBytes, maxRepeat := RepeatCount.limit, persist := true }

structure Session (ρ : Type) where
  config : SessionConfig
  memory : Memory
  supply : Supply ρ

namespace Session

/-- A session that has seen no message. -/
def ofConfig (config : SessionConfig) : Session Pcg64 where
  config
  memory := .empty
  supply := { source := .ofSeed config.seed, mutators? := none }

variable {ρ : Type} (session : Session ρ)

/-- Binds mutators, within the budget of the session. -/
def setMutators (mutators : Mutators) : Session ρ :=
  let mutators := { mutators with budget := session.config.choiceBudget }
  { session with supply := { session.supply with mutators? := some mutators } }

/-- Takes all mutators away. -/
def clearMutators : Session ρ :=
  { session with supply := { session.supply with mutators? := none } }

/-- Generates a message, or says why there is none. -/
def generate [RandomSource ρ] (s : Symbol) : Except GenerationError Message × Session ρ :=
  match (s.generateMessage session.config.settings session.memory).run.run session.supply with
  | (.ok (message, memory), supply) => (.ok message, { session with memory, supply })
  | (.error e, supply) => (.error e, { session with supply })

/-- Reads bits as a message of the first symbol that accepts them. -/
def recognizeBits (symbols : List Symbol) (data : BitString) : Option Message × Session ρ :=
  match symbols with
  | [] => (none, session)
  | s :: rest =>
    let settings := session.config.settings
    match s.recognize settings.maxRepeat settings.persist data session.memory with
    | (some message, memory) => (some message, { session with memory })
    | (none, _) => recognizeBits rest data

/-- Reads bytes as a message of the first symbol that accepts them. -/
def recognize (symbols : List Symbol) (data : List UInt8) : Option Message × Session ρ :=
  session.recognizeBits symbols (.ofBytes data)

/-- Another session with the same memory, the next word of this one as its seed, and no mutators. -/
def fork [RandomSource ρ] : Session Pcg64 × Session ρ :=
  let (seed, source) := RandomSource.next64 session.supply.source
  ({ config := session.config, memory := session.memory,
     supply := { source := .ofSeed seed.toNat, mutators? := none } },
   { session with supply := { session.supply with source } })

end Session

end WireGrammar
