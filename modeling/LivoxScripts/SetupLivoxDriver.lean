/-
`setup_livox_driver.sh`, step 4: the host address of the configuration, and its
replacement when the user agrees.
-/
import LivoxScripts.Config
import LivoxScripts.Machine

namespace LivoxScripts.SetupLivoxDriver

open TextTools JsonText

/-- `"host_ip"\s*:\s*"\K[^"]+` -/
def hostIpPattern : Regex := keyed isSpace hostIpKey (captured notQuote)

/-- `"host_ip"\s*:\s*"[^"]*"` -/
def hostIpMember : Regex := keyed isSpace hostIpKey (enclosed notQuote ['"'] [])

def currentHostIp (ipAddrShow : Text) : Text :=
  commandSubst (head1 (grepV (.dotted "127.0.0.1".toList)
    (grepO .perl inetPattern ipAddrShow)))

def configHostIp (configFile : Text) : Text :=
  commandSubst (head1 (grepO .perl hostIpPattern configFile))

/-- The answers that match `^[Yy]$`. -/
def agrees (response : Text) : Bool :=
  (Regex.seq .bol (.seq (.cls fun c => c == 'Y' || c == 'y') .eol)).search true
    response

/-- The configuration after `sed -i`.  An address has none of the characters
that are special in a replacement. -/
def updateConfig (currentHostIp configFile : Text) : Text :=
  sed hostIpMember ("\"host_ip\": \"".toList ++ (currentHostIp ++ "\"".toList))
    configFile

/-- The configuration and its backup. -/
structure Files where
  configFile : Option Text
  backup : Option Text

/-- What the step reports.  After a mismatch it asks the user; at the end of
its input the script stops, as `set -e` tells it to. -/
inductive HostIpReport where
  | noConfigFile
  | correct
  | updated
  | kept (configHostIp : Text)
  | stopped
deriving DecidableEq

def HostIpReport.isMismatch : HostIpReport → Bool
  | updated | kept _ | stopped => true
  | noConfigFile | correct => false

/-- Step 4, with the line the user types after a mismatch. -/
def step4 (ipAddrShow : Text) (response : Option Text) (files : Files) :
    HostIpReport × Files :=
  match files.configFile with
  | none => (.noConfigFile, files)
  | some configFile =>
      if currentHostIp ipAddrShow ≠ configHostIp configFile then
        match response with
        | none => (.stopped, files)
        | some line =>
            if agrees line then
              (.updated,
                ⟨some (updateConfig (currentHostIp ipAddrShow) configFile),
                  some configFile⟩)
            else (.kept (configHostIp configFile), files)
      else (.correct, files)

variable {ipAddrShow configFile : Text} {response : Option Text} {files : Files}

theorem isMismatch_iff (h : files.configFile = some configFile) :
    (step4 ipAddrShow response files).1.isMismatch = true ↔
      currentHostIp ipAddrShow ≠ configHostIp configFile := by
  unfold step4
  rw [h]
  by_cases hsame : currentHostIp ipAddrShow = configHostIp configFile
  · simp [hsame, HostIpReport.isMismatch]
  · simp only [ne_eq, hsame, not_false_eq_true, ↓reduceIte, iff_true]
    split
    · rfl
    · split <;> rfl

/-- The files are left alone unless the addresses differ and the user
agrees. -/
theorem step4_files (h : files.configFile = some configFile) :
    (step4 ipAddrShow response files).2 =
      if currentHostIp ipAddrShow ≠ configHostIp configFile ∧
          response.any agrees then
        ⟨some (updateConfig (currentHostIp ipAddrShow) configFile),
          some configFile⟩
      else files := by
  unfold step4
  rw [h]
  by_cases hsame : currentHostIp ipAddrShow = configHostIp configFile
  · simp [hsame]
  · cases response with
    | none => simp [hsame]
    | some line => by_cases hline : agrees line <;> simp [hsame, hline]

end LivoxScripts.SetupLivoxDriver
