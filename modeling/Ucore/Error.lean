/-! Error codes. Kernel calls return them negated, and zero on success. -/

namespace Ucore

def eNoEnt : Int := 2
def eBadProc : Int := 3
def eNoMem : Int := 12
def eBusy : Int := 16
def eNoFreeProc : Int := eBusy
def eInval : Int := 22
def eTooBig : Int := 27
def eTimeout : Int := eBusy
def eKilled : Int := 37
def eSwapFault : Int := 39

end Ucore
