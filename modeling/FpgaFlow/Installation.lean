import FpgaFlow.Host
import FpgaFlow.Version

/-!
# Installed toolchains

The vendor's tools are installed below one directory, each version in a directory of its own that is
named by the version. The newest version is used (`View.newestVersion`). A version has a settings
script for each width of host; on a host of 64 bits the script for 32 bits takes the place of a
missing one.
-/

namespace FpgaFlow

/-- The directory that the vendor's installer proposes. -/
def defaultInstallRoot : Path := ⟨"/opt/Xilinx"⟩

/-- The width of the hosts that builds run on. -/
def hostBits : Nat := 64

namespace View

/-- The versions that are installed below a directory. -/
def installedVersions (v : View) (root : Path) : List Version :=
  match v.list root with
  | .ok names => (names.filter fun name => v.isDirectory (root.child name)).filterMap Version.parse?
  | .error _ => []

/-- The newest version that is installed below a directory. -/
def newestVersion (v : View) (root : Path) : Except Fault Version :=
  match Version.newest? (v.installedVersions root) with
  | some version => .ok version
  | none => .error (.toolchainNotFound root)

end View

/-- The name of the settings script for a width of host. -/
def settingsName (bits : Nat) : String :=
  "settings" ++ toString bits ++ ".sh"

namespace View

/-- The settings script of a version for a width of host. -/
def settingsScript (v : View) (root : Path) (version : Version) (bits : Nat) : Path :=
  let directory := (root.child version.text).child "ISE_DS"
  let script := directory.child (settingsName bits)
  if bits = 64 ∧ v.exists_ script = false then directory.child (settingsName 32) else script

/-- The commands that set up the environment of the tools; none when that is not asked for. -/
def environmentCommands (v : View) (root : Path) (wanted : Bool) : Except Fault (List String) := do
  if !wanted then return []
  let version ← v.newestVersion root
  return ["source " ++ (v.settingsScript root version hostBits).text]

end View

end FpgaFlow
