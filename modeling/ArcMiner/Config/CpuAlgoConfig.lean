import ArcMiner.Library.CSharp
import ArcMiner.Library.Except

/-! `CpuAlgoConfigLoader`: the settings of a CPU algorithm from the environment.

Settings of the algorithm come first, then those of the CPU side, then the shared ones. In a
pair with a GPU algorithm the shared settings are those of the GPU side.
-/

namespace ArcMiner.Config

open Library Library.CSharp Option Except

structure CpuAlgoConfig where
  threads : Int
  worker : String
  poolUrl : Option String
  address : Option String
  password : String
  useTls : Bool
  affinity : Bool
  keepaliveSec : Int
  pollSec : Float
  isDual : Bool
  stratumHint : Bool
  threadsExplicit : Bool

structure Host where
  machineName : String
  processorCount : Int
  tryParseInt : String → Option Int
  tryParseDouble : String → Option Float

structure Defaults where
  keepaliveSec : Int
  pollSec : Float
  dualReserve : Int

abbrev Environment := String → Option String

namespace CpuAlgoConfigLoader

def walletSentinel : String := "unused-non-prl-algo"

def normalize (lookup : Environment) : Environment := fun name =>
  (lookup name).bind fun v => if isBlank v then none else some (trim v)

def schemeImpliesTls (url : Option String) : Bool :=
  match url with
  | none => false
  | some url => startsWithIgnoreCase "stratum+tls://" url || startsWithIgnoreCase "stratum+ssl://" url ||
      startsWithIgnoreCase "ssl://" url || startsWithIgnoreCase "tls://" url

def own (algo suffix : String) : String := "ARC_" ++ algo ++ "_" ++ suffix

section load
variable (host : Host) (algo : String) (defaults : Defaults) (e : Environment)

def isDual : Bool := e (own algo "DUAL") = some "1"

def positive (text : Option String) : Option Int := (text.bind host.tryParseInt).filter fun n => 0 < n

def explicitThreads : Option Int :=
  (positive host (e (own algo "THREADS"))).or (positive host (e "ARC_POOL_CPU_THREADS"))

def threads : Int :=
  match explicitThreads host algo e with
  | some t => t
  | none =>
    let threads := max 1 host.processorCount
    if isDual algo e then
      let reserve := (((e (own algo "DUAL_RESERVE")).bind host.tryParseInt).filter fun r => 0 ≤ r).getD defaults.dualReserve
      max 1 (threads - reserve)
    else threads

def address : Option String :=
  match (e (own algo "ADDRESS")).or (e "ARC_POOL_CPU_WALLET") with
  | some address => some address
  | none => if isDual algo e then none else (e "ARC_POOL_WALLET").filter fun shared => shared ≠ walletSentinel

/-- The pool with the hint that came with it: from the algorithm, the CPU side or, outside a pair, the shared settings. -/
def pool : Option String × Bool :=
  match (e (own algo "POOL")).or (e (own algo "NODE")) with
  | some pool => (some pool, false)
  | none =>
    match e "ARC_POOL_CPU_HOST" with
    | some cpuHost =>
      let pool := match e "ARC_POOL_CPU_PORT" with
        | some cpuPort => cpuHost ++ ":" ++ cpuPort
        | none => cpuHost
      (some pool, e "ARC_POOL_CPU_STRATUM" = some "true")
    | none =>
      if isDual algo e then (none, false)
      else match e "ARC_POOL_HOST", e "ARC_POOL_PORT" with
        | some host, some port => (some (host ++ ":" ++ port), e "ARC_POOL_STRATUM" = some "true")
        | _, _ => (none, false)

def useTls : Bool :=
  schemeImpliesTls (pool algo e).1 || e (own algo "TLS") = some "true" || e "ARC_POOL_CPU_TLS" = some "true" ||
    (!isDual algo e && e "ARC_POOL_TLS" = some "true")

/-- A setting of the algorithm, of the CPU side or else the shared one, in a pair too. -/
def fallback (suffix cpu shared : String) : Option String := ((e (own algo suffix)).or (e cpu)).or (e shared)

def worker : String := (fallback algo e "WORKER" "ARC_POOL_CPU_WORKER" "ARC_POOL_WORKER").getD host.machineName

def password : String := (fallback algo e "PASSWORD" "ARC_POOL_CPU_PASSWORD" "ARC_STRATUM_PASSWORD").getD "x"

end load

def load (host : Host) (algo : String) (defaults : Defaults) (env : Environment) : Result CpuAlgoConfig :=
  let e := normalize env
  if isBlank algo then
    .error (.argument "The value cannot be an empty string or composed entirely of whitespace. (Parameter 'prefix')")
  else .ok
    { threads := threads host algo defaults e
      worker := worker host algo e
      poolUrl := (pool algo e).1
      address := address algo e
      password := password algo e
      useTls := useTls algo e
      affinity := e (own algo "AFFINITY") = some "1"
      keepaliveSec := (positive host (e "ARC_STRATUM_KEEPALIVE_SEC")).getD defaults.keepaliveSec
      pollSec := (((e (own algo "POLL_SEC")).bind host.tryParseDouble).filter fun p => p > 0).getD defaults.pollSec
      isDual := isDual algo e
      stratumHint := (pool algo e).2
      threadsExplicit := (explicitThreads host algo e).isSome }

structure Connection where
  poolUrl : Option String
  address : Option String
  worker : String
  password : String
  useTls : Bool
  stratumHint : Bool
deriving DecidableEq

def connection (config : CpuAlgoConfig) : Connection :=
  ⟨config.poolUrl, config.address, config.worker, config.password, config.useTls, config.stratumHint⟩

def CpuSide (algo name : String) : Prop :=
  (own algo "").toList <+: name.toList ∨ "ARC_POOL_CPU_".toList <+: name.toList

instance (algo name : String) : Decidable (CpuSide algo name) := inferInstanceAs (Decidable (_ ∨ _))

def SameCpuSide (algo : String) (env other : Environment) : Prop := ∀ name, CpuSide algo name → env name = other name

def Isolated (host : Host) (algo : String) (defaults : Defaults) (env : Environment) : Prop :=
  ∀ other, SameCpuSide algo env other →
    connection <$> load host algo defaults other = connection <$> load host algo defaults env

theorem cpuSide_own (algo suffix : String) : CpuSide algo (own algo suffix) := by
  refine .inl ⟨suffix.toList, ?_⟩
  simp [own]

section agree
variable {algo : String} {env other : Environment} (same : SameCpuSide algo env other)
include same

theorem normalize_eq {name : String} (cpu : CpuSide algo name) : normalize other name = normalize env name := by
  rw [normalize, normalize, same name cpu]

theorem normalize_own (suffix : String) : normalize other (own algo suffix) = normalize env (own algo suffix) :=
  normalize_eq same (cpuSide_own algo suffix)

theorem isDual_eq : isDual algo (normalize other) = isDual algo (normalize env) := by
  rw [isDual, isDual, normalize_own same]

section dual
variable (dual : isDual algo (normalize env) = true)
include dual

theorem pool_eq : pool algo (normalize other) = pool algo (normalize env) := by
  have host := normalize_eq same (show CpuSide algo "ARC_POOL_CPU_HOST" from .inr (by decide))
  have port := normalize_eq same (show CpuSide algo "ARC_POOL_CPU_PORT" from .inr (by decide))
  have stratum := normalize_eq same (show CpuSide algo "ARC_POOL_CPU_STRATUM" from .inr (by decide))
  have paired := isDual_eq same
  unfold pool
  simp only [normalize_own same, host, port, stratum, paired, dual, ↓reduceIte]

theorem address_eq : address algo (normalize other) = address algo (normalize env) := by
  have wallet := normalize_eq same (show CpuSide algo "ARC_POOL_CPU_WALLET" from .inr (by decide))
  have paired := isDual_eq same
  unfold address
  simp only [normalize_own same, wallet, paired, dual, ↓reduceIte]

theorem useTls_eq : useTls algo (normalize other) = useTls algo (normalize env) := by
  have tls := normalize_eq same (show CpuSide algo "ARC_POOL_CPU_TLS" from .inr (by decide))
  have paired := isDual_eq same
  unfold useTls
  simp only [normalize_own same, tls, paired, dual, pool_eq same dual, Bool.not_true, Bool.false_and]

end dual
end agree

def Supplied (algo : String) (env : Environment) (suffix cpu shared : String) : Prop :=
  (normalize env (own algo suffix)).isSome ∨ (normalize env cpu).isSome ∨ CpuSide algo shared

section fallback
variable {algo : String} {env : Environment} {suffix cpu shared : String} (ofCpu : CpuSide algo cpu)
include ofCpu

theorem fallback_eq {other : Environment} (same : SameCpuSide algo env other) (supplied : Supplied algo env suffix cpu shared) :
    fallback algo (normalize other) suffix cpu shared = fallback algo (normalize env) suffix cpu shared := by
  unfold fallback
  rw [normalize_own same, normalize_eq same ofCpu]
  rcases supplied with first | second | its
  · obtain ⟨value, found⟩ := isSome_iff_exists.mp first
    rw [found]
    rfl
  · obtain ⟨value, found⟩ := isSome_iff_exists.mp second
    rw [found]
    cases normalize env (own algo suffix) <;> rfl
  · rw [normalize_eq same its]

theorem fallback_of_not_supplied (missing : ¬Supplied algo env suffix cpu shared) {text : String}
    (solid : isBlank text = false) (tight : trim text = text) :
    SameCpuSide algo env (Function.update env shared (some text)) ∧
      fallback algo (normalize (Function.update env shared (some text))) suffix cpu shared = some text := by
  obtain ⟨noOwn, noCpu, foreign⟩ : ¬(normalize env (own algo suffix)).isSome ∧ ¬(normalize env cpu).isSome ∧
      ¬CpuSide algo shared := by simpa [Supplied, not_or] using missing
  have same : SameCpuSide algo env (Function.update env shared (some text)) := by
    intro name its
    rw [Function.update_of_ne]
    rintro rfl
    exact foreign its
  refine ⟨same, ?_⟩
  have written : normalize (Function.update env shared (some text)) shared = some text := by
    simp [normalize, solid, tight]
  rw [fallback, normalize_own same, normalize_eq same ofCpu, written, not_isSome_iff_eq_none.mp noOwn,
    not_isSome_iff_eq_none.mp noCpu]
  rfl

theorem exists_fallback_ne (missing : ¬Supplied algo env suffix cpu shared) (value : String) :
    ∃ other, SameCpuSide algo env other ∧
      ∃ text, fallback algo (normalize other) suffix cpu shared = some text ∧ text ≠ value := by
  by_cases first : value = "a"
  · obtain ⟨same, read⟩ := fallback_of_not_supplied ofCpu missing (show isBlank "b" = false by decide) (by decide)
    exact ⟨_, same, "b", read, by rw [first]; decide⟩
  · obtain ⟨same, read⟩ := fallback_of_not_supplied ofCpu missing (show isBlank "a" = false by decide) (by decide)
    exact ⟨_, same, "a", read, fun other => first other.symm⟩

end fallback

/-- In a pair the connection is isolated from the shared settings exactly when the CPU side has its own worker and
its own password. -/
theorem isolated_iff {host : Host} {algo : String} {defaults : Defaults} {env : Environment} {config : CpuAlgoConfig}
    (returned : load host algo defaults env = .ok config) (dual : normalize env (own algo "DUAL") = some "1") :
    Isolated host algo defaults env ↔
      Supplied algo env "WORKER" "ARC_POOL_CPU_WORKER" "ARC_POOL_WORKER" ∧
      Supplied algo env "PASSWORD" "ARC_POOL_CPU_PASSWORD" "ARC_STRATUM_PASSWORD" := by
  have named : isBlank algo = false := by
    by_contra blank
    rw [load, if_pos (by simpa using blank)] at returned
    cases returned
  have loaded (other : Environment) : connection <$> load host algo defaults other = .ok
      { poolUrl := (pool algo (normalize other)).1
        address := address algo (normalize other)
        worker := worker host algo (normalize other)
        password := password algo (normalize other)
        useTls := useTls algo (normalize other)
        stratumHint := (pool algo (normalize other)).2 } := by
    rw [load, if_neg (by simp [named])]
    rfl
  have paired : isDual algo (normalize env) = true := by simp [isDual, dual]
  have workerSide : CpuSide algo "ARC_POOL_CPU_WORKER" := .inr (by decide)
  have passwordSide : CpuSide algo "ARC_POOL_CPU_PASSWORD" := .inr (by decide)
  unfold Isolated
  simp only [loaded, ok.injEq, Connection.mk.injEq]
  constructor
  · intro isolated
    constructor
    · by_contra missing
      obtain ⟨other, same, text, read, apart⟩ := exists_fallback_ne workerSide missing (worker host algo (normalize env))
      obtain ⟨-, -, equal, -⟩ := isolated other same
      rw [worker, read] at equal
      exact apart equal
    · by_contra missing
      obtain ⟨other, same, text, read, apart⟩ := exists_fallback_ne passwordSide missing (password algo (normalize env))
      obtain ⟨-, -, -, equal, -⟩ := isolated other same
      rw [password, read] at equal
      exact apart equal
  · rintro ⟨workerSupplied, passwordSupplied⟩ other same
    have samePool := pool_eq same paired
    refine ⟨by rw [samePool], address_eq same paired, ?_, ?_, useTls_eq same paired, by rw [samePool]⟩
    · rw [worker, worker, fallback_eq workerSide same workerSupplied]
    · rw [password, password, fallback_eq passwordSide same passwordSupplied]

def sampleHost : Host := ⟨"rig", 8, fun _ => none, fun _ => none⟩

def sampleDefaults : Defaults := ⟨30, 2, 2⟩

def pairedEnvironment : Environment := fun name =>
  if name = "ARC_RX_DUAL" then some "1"
  else if name = "ARC_RX_WORKER" then some "cpu"
  else if name = "ARC_POOL_CPU_PASSWORD" then some "x"
  else none

theorem isolated_paired : Isolated sampleHost "RX" sampleDefaults pairedEnvironment := by
  obtain ⟨config, returned⟩ : ∃ config, load sampleHost "RX" sampleDefaults pairedEnvironment = .ok config := by
    rw [load, if_neg (by decide)]
    exact ⟨_, rfl⟩
  exact (isolated_iff returned (by decide)).mpr ⟨.inl (by decide), .inr (.inl (by decide))⟩

/-- Without a password of its own the CPU side is sent the one of the GPU pool. -/
theorem password_leaks :
    ∃ env other : Environment, env (own "RX" "DUAL") = some "1" ∧ other (own "RX" "DUAL") = some "1" ∧
      SameCpuSide "RX" env other ∧ (∀ name, name ≠ "ARC_STRATUM_PASSWORD" → env name = other name) ∧
      CpuAlgoConfig.password <$> load sampleHost "RX" sampleDefaults env = .ok "x" ∧
      CpuAlgoConfig.password <$> load sampleHost "RX" sampleDefaults other = .ok "x;d=250000" := by
  have apart : ∀ name, name ≠ "ARC_STRATUM_PASSWORD" → Function.update (fun name => if name = "ARC_RX_DUAL" then some "1" else none)
      "ARC_STRATUM_PASSWORD" (some "x;d=250000") name = if name = "ARC_RX_DUAL" then some "1" else none :=
    fun name other => Function.update_of_ne other _ _
  refine ⟨fun name => if name = "ARC_RX_DUAL" then some "1" else none, _, by decide, by decide, ?_,
    fun name other => (apart name other).symm, ?_, ?_⟩
  · intro name its
    refine (apart name ?_).symm
    rintro rfl
    exact absurd its (by decide)
  · rw [load, if_neg (by decide)]
    exact congrArg ok (by decide)
  · rw [load, if_neg (by decide)]
    exact congrArg ok (by decide)

end CpuAlgoConfigLoader
end ArcMiner.Config
