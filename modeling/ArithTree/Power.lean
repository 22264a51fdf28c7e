-- Powers of numbers are the core ones in every module, whatever else a module imports.
attribute [instance (high)] instPowNat
attribute [default_instance (high + 1)] instPowNat
