/-
`fix_livox_ip.sh`: the search for a Livox device and the two rewrites of the
configuration.
-/
import LivoxScripts.ArpTable
import LivoxScripts.Config

namespace LivoxScripts.FixLivoxIp

open TextTools JsonText

/-- `0c:9a|00:16|00:1e` -/
def livoxPattern : Regex :=
  .alt (.lit "0c:9a".toList) (.alt (.lit "00:16".toList)
    (.lit "00:1e".toList))

/-- `^0c:9a|^00:16|^00:1e` -/
def livoxPrefixPattern : Regex :=
  .alt (.seq .bol (.lit "0c:9a".toList))
    (.alt (.seq .bol (.lit "00:16".toList)) (.seq .bol (.lit "00:1e".toList)))

/-- The first lookup, in the table as it stands. -/
def arpLookup (arpTable : Text) : Text :=
  commandSubst (head1 (grepO .perl quadPattern (grep livoxPattern arpTable)))

/-- The test of the fallback scan on the MAC address of an address. -/
def isLivox (arpTable ip : Text) : Bool :=
  grepQ livoxPrefixPattern (echo (macLookup arpTable ip))

/-- The fallback scan: the first address that answers and is a Livox device.
`ping` tells which addresses answer, `arpAfter` the table once an address has
been pinged. -/
def scanNetwork (ping : Text → Bool) (arpAfter : Text → Text) :
    List Nat → Text
  | [] => []
  | i :: is =>
      let ip := "192.168.1.".toList ++ Nat.toDigits 10 i
      if ping ip && isLivox (arpAfter ip) ip then ip
      else scanNetwork ping arpAfter is

def livoxIp (ping : Text → Bool) (arpAfter : Text → Text)
    (arpTable : Text) : Text :=
  if (arpLookup arpTable).isEmpty then
    scanNetwork ping arpAfter (List.range' 150 51)
  else arpLookup arpTable

/-- `"lidar_ip"\s*:\s*\["[^"]*"\]` -/
def lidarIpPattern : Regex :=
  keyed isSpace lidarIpKey (enclosed notQuote ['[', '"'] [']'])

/-- `"ip"\s*:\s*"[^"]*"` -/
def ipPattern : Regex := keyed isSpace ipKey (enclosed notQuote ['"'] [])

/-- The configuration after both `sed -i`.  An address has none of the
characters that are special in a replacement. -/
def updateConfig (livoxIp configFile : Text) : Text :=
  sed ipPattern ("\"ip\": \"".toList ++ (livoxIp ++ "\"".toList))
    (sed lidarIpPattern
      ("\"lidar_ip\": [\"".toList ++ (livoxIp ++ "\"]".toList)) configFile)

end LivoxScripts.FixLivoxIp
