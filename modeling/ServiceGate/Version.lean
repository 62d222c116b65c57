/-
# Name and version of the tool

Reports, configuration files and the command line give them.
-/

namespace ServiceGate

def toolName : String := "sentinel-gate"

def toolVersion : String := "0.1.0"

end ServiceGate
